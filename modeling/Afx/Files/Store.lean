import Afx.Files.Tree
import Afx.Fusion.Balance

/-!
# Writing Files

A document is written in steps: the directories on the way are made, the
document is put into a temporary file beside its target, it is checked, and
then the temporary file takes the place of the target. If the check or the last
step fails the temporary file is removed, so the target has either its old
content or the new one, while directories that were made stay.

The name of the temporary file has a part that is drawn at random, and if there is
something of that name, another is drawn. Nothing is assumed about the draws: they
are given, one after another, to every operation that needs them.

A document can also be written plainly, straight into its target. A document
that cannot be encoded is noticed when the file is open, so that a file into
which it was to be written is left empty.

Every operation gives the tree it leaves behind, also when it fails.

## Main definitions

* `Document`: A text to be written, and whether it can be encoded.
* `Refusal`: Why a document is not written.
* `makeDirectory`, `makeDirectories`: One directory, or all on the way.
* `Draw`: The part of a temporary name that is drawn.
* `Tree.temporaryPlace`: Where a temporary file for a target can be made.
* `Tree.move`: Moves a file to a route.
* `writeAtomically`: Writes through a temporary file.
* `writeNew`: Writes through a temporary file unless there is a target.
* `writePlainly`: Writes straight into the target.
-/

namespace Afx

namespace Files

/-- A text to be written. If it cannot be encoded, something stands in the text
    for what is no character. -/
structure Document where
  text : String
  encodable : Bool := true
  deriving DecidableEq, Repr

instance : Coe String Document := ⟨fun text => { text }⟩

/-- What a file holds into which a document was written: nothing of one that
    cannot be encoded. -/
def Document.stored (d : Document) : ByteArray :=
  if d.encodable then d.text.toUTF8 else .empty

/-- Why a document is not written. -/
inductive Refusal where
  /-- Its braces do not balance. -/
  | imbalance (found : Fusion.Imbalance)
  /-- A check refused it, with its reason. -/
  | rejected (reason : String)
  /-- There is something at the path already. -/
  | taken (path : String)
  deriving DecidableEq, Repr

/-- The wording of a refusal. -/
def Refusal.message : Refusal → String
  | imbalance found => found.message
  | rejected reason => reason
  | taken path => "Output file already exists: " ++ path ++ ". Use --mode force to overwrite."

/-- Why writing fails: the document is refused, or cannot be encoded, or a file
    operation fails. -/
inductive WriteFault where
  | refused (refusal : Refusal)
  | unencodable
  | files (fault : FileFault)
  deriving DecidableEq, Repr

/-- A check that a document has to pass. -/
abbrev Check := String → Except Refusal Unit

/-- The check that braces balance. -/
def Check.braces : Check := fun document =>
  (Fusion.checkBraces document).mapError .imbalance

/-- The check that every document passes. -/
def Check.none : Check := fun _ => .ok ()

/-- What keeps a document that is in its temporary file from being used. -/
def Document.admitted (d : Document) (check : Check) : Except WriteFault Unit :=
  if d.encodable then (check d.text).mapError .refused else .error .unencodable

/-- What an operation gives, and the tree it leaves behind. -/
structure Result (ε α : Type) where
  outcome : Except ε α
  tree : Tree

/-- Makes a directory, whose parent has to be there. -/
def makeDirectory (t : Tree) (r : Route) : Except FileFault Tree :=
  match t.find r with
  | .ok (place, none) => .ok (t.put place .directory)
  | .ok (_, some _) => .error .alreadyExists
  | .error fault => .error fault

/-- Making a directory is no failure if there is one. -/
def tolerating (t : Tree) (r : Route) (fault : FileFault) : Result FileFault Unit :=
  if t.isDirectory r then ⟨.ok (), t⟩ else ⟨.error fault, t⟩

/-- How many directories on the way may be missing to be made at once. -/
def directoryLimit : Nat := 970

/-- Makes the directory whose components from a start are given last first, and at most
    `limit` of those on the way that are missing. The start itself is not made. -/
def makeDirectoriesWithin (t : Tree) (start : Option (List String)) :
    (limit : Nat) → List String → Result FileFault Unit
  | _, [] => tolerating t ⟨start, []⟩ .notFound
  | limit, name :: outer =>
    let r : Route := ⟨start, (name :: outer).reverse⟩
    match makeDirectory t r, limit with
    | .ok made, _ => ⟨.ok (), made⟩
    | .error .notFound, 0 => ⟨.error .tooManyDirectories, t⟩
    | .error .notFound, limit + 1 =>
      -- The directories on the way come first, and then this one is tried again.
      match makeDirectoriesWithin t start limit outer with
      | ⟨.error fault, after⟩ => ⟨.error fault, after⟩
      | ⟨.ok (), after⟩ =>
        match makeDirectory after r with
        | .ok made => ⟨.ok (), made⟩
        | .error fault => tolerating after r fault
    | .error fault, _ => tolerating t r fault

/-- Makes a directory, and those on the way that are missing. -/
def makeDirectories (t : Tree) (r : Route) : Result FileFault Unit :=
  makeDirectoriesWithin t r.start directoryLimit r.components.reverse

/-- The characters that are drawn for the name of a temporary file. -/
def isDrawChar (c : Char) : Bool :=
  c.isLower || c.isDigit || c == '_'

/-- The part of a temporary name that is drawn: eight characters. -/
structure Draw where
  letters : List Char
  length_eq : letters.length = 8
  drawn : ∀ c ∈ letters, isDrawChar c = true
  deriving DecidableEq, Repr

/-- The draw of the last eight digits of a number, for programs that leave nothing to
    chance. -/
def Draw.ofNumber (number : Nat) : Draw where
  letters := (List.range 8).map fun place => Nat.digitChar (number / Nat.pow 10 place % 10)
  length_eq := by rw [List.length_map, List.length_range]
  drawn := by
    have hdigit : ∀ digit < 10, isDrawChar (Nat.digitChar digit) = true := by decide
    intro c hc
    rcases List.mem_map.mp hc with ⟨place, -, rfl⟩
    exact hdigit _ (Nat.mod_lt _ (by decide))

/-- The name of a temporary file for a target. -/
def temporaryName (target : String) (draw : Draw) : String :=
  "." ++ target ++ "." ++ String.ofList draw.letters ++ ".tmp"

/-- The route to a temporary file for a target, in the directory of the target. -/
def Route.beside (target : Route) (draw : Draw) : Route :=
  .fromRoot (target.parent.cancelled.components ++ [temporaryName target.name draw])

/-- Where a temporary file for a target is made: under the first name that is drawn and
    is new in the directory. -/
def Tree.temporaryPlace (t : Tree) (target : Route) : List Draw → Except FileFault Place
  | [] => .error .alreadyExists
  | draw :: more =>
    match t.find (target.beside draw) with
    | .ok (place, none) => .ok place
    | .ok (_, some _) => t.temporaryPlace target more
    | .error fault => .error fault

/-- Moves what is at a place to a route, in place of a file that is there. -/
def Tree.move (t : Tree) (source : Place) (target : Route) : Except FileFault Tree :=
  match t.find target with
  | .error fault => .error fault
  | .ok (place, found) =>
    if target.isNameless then .error .busy
    else
      match found, t.get? source with
      | some .directory, _ => .error .isADirectory
      | _, some moved => .ok ((t.remove source).put place moved)
      | _, none => .error .notFound

/-- Writes a document through a temporary file beside the target. -/
def writeAtomically (check : Check) (draws : List Draw) (t : Tree) (target : Route)
    (document : Document) : Result WriteFault Unit :=
  match makeDirectories t target.parent with
  | ⟨.error fault, after⟩ => ⟨.error (.files fault), after⟩
  | ⟨.ok (), ready⟩ =>
    -- Beside the target, so that moving it stays within one directory.
    match ready.temporaryPlace target draws with
    | .error fault => ⟨.error (.files fault), ready⟩
    | .ok temporary =>
      let filled := ready.put temporary (.file document.stored)
      match document.admitted check with
      | .error fault => ⟨.error fault, filled.remove temporary⟩
      | .ok () =>
        match filled.move temporary target with
        | .ok moved => ⟨.ok (), moved⟩
        | .error fault => ⟨.error (.files fault), filled.remove temporary⟩

/-- Writes a document through a temporary file unless the target is there. -/
def writeNew (check : Check) (draws : List Draw) (t : Tree) (target : Route)
    (document : Document) : Result WriteFault Unit :=
  match t.isThere target with
  | .error fault => ⟨.error (.files fault), t⟩
  | .ok true => ⟨.error (.refused (.taken target.text)), t⟩
  | .ok false => writeAtomically check draws t target document

/-- Writes a document straight into its target, whose parent has to be there. -/
def writePlainly (t : Tree) (target : Route) (document : Document) : Result WriteFault Unit :=
  match t.find target with
  | .ok (_, some .directory) => ⟨.error (.files .isADirectory), t⟩
  | .ok (place, _) =>
    -- The old content is gone before the document is encoded.
    ⟨document.admitted Check.none, t.put place (.file document.stored)⟩
  | .error fault => ⟨.error (.files fault), t⟩

end Files

end Afx
