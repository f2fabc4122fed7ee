import Afx.Proofs.Directories

/-!
# Writing Is Atomic

A document that is written through a temporary file goes through many states of
the tree: directories appear, the temporary file appears, it is moved or taken
away. `writeAtomically_eq` says that none of this is left over. The temporary
file has a name that is new in its directory, so that taking it away gives the
tree back as it was, and moving it is the same as writing to the target at once.
What remains is the growth of the tree by the directories on the way, and one
file.

So a call of a writer has one of two effects. It succeeds, and the file that its
route leads to has the new content; or it fails, and no file has changed. In
both cases the only other change are new directories, each of which is named by
one of the parents of the route. What one call can do is said once, in
`Call.Effect`, and what a sequence of calls can store follows by induction on
the sequence.

## Main definitions

* `replaced`: What is left to do once the temporary file is there.
* `Route.HasRoom`, `Tree.HasNewName`: When a temporary file can be made.
* `Call`: A call of a writer.
* `performAll`: The tree after a sequence of calls.
* `Call.Effect`: What a call does to the tree.
* `Tree.Accepts`: Nothing keeps a file from being written.

## Theorems

* `temporaryPlace_eq_ok`: The temporary file is new.
* `writeAtomically_eq`: Nothing of the temporary file is left over.
* `temporaryPlace_of_hasRoom`: Where there is room, a new name is all that is needed.
* `effect_perform`: Every call has the effect.
* `succeeds_perform`: A call succeeds where nothing stands in the way.
* `calls_are_atomic`: The same for the calls of a sequence, after which every
  file holds what it held or what was admitted.
-/

namespace Afx

namespace Files

variable {t : Tree}

/-! ## The temporary file -/

theorem length_temporaryName (target : String) (draw : Draw) :
    (temporaryName target draw).length = target.length + 14 := by
  simp only [temporaryName, String.length_append, String.length_ofList, draw.length_eq]
  have hdot : ".".length = 1 := rfl
  have hending : ".tmp".length = 4 := rfl
  omega

theorem temporaryName_ne (target : String) (draw : Draw) :
    temporaryName target draw ≠ target ∧ temporaryName target draw ≠ parentMark := by
  have hlength := length_temporaryName target draw
  constructor
  · intro h
    rw [h] at hlength
    omega
  · intro h
    have hmark : parentMark.length = 2 := rfl
    rw [h, hmark] at hlength
    omega

@[simp]
theorem name_beside (target : Route) (draw : Draw) :
    (target.beside draw).name = temporaryName target.name draw :=
  Route.name_concat _ _ _

@[simp]
theorem parent_beside (target : Route) (draw : Draw) :
    (target.beside draw).parent = target.parent.cancelled :=
  Route.parent_concat _ _ _

theorem named_beside (target : Route) (draw : Draw) : (target.beside draw).isNameless = false := by
  rw [Route.isNameless_eq_false, name_beside]
  exact ⟨by simp [Route.beside, Route.fromRoot], (temporaryName_ne target.name draw).2⟩

/-- Where the directory of a target can be entered, so can that of its temporary file. -/
theorem enter_beside {target : Route} {p : Place} (h : t.enter [] target.parent.way = .ok p)
    (draw : Draw) : t.enter [] (target.beside draw).parent.way = .ok p := by
  have hp : (target.beside draw).parent.way = p := by
    rw [walked_of_enter h, parent_beside]
    rfl
  rw [hp, enter_of_enter h]

/-- What is found along the route to a temporary file is under its name in the directory
    of the target. -/
theorem find_beside_eq_ok {target : Route} {draw : Draw} {p : Place} {e : Option Entry}
    (h : t.find (target.beside draw) = .ok (p, e)) :
    p = target.parent.cancelled.components ++ [temporaryName target.name draw] ∧
      e = t.get? p := by
  rcases find_eq_ok h with ⟨hname, -⟩ | ⟨parent, hnames, rfl, he⟩
  · rw [named_beside] at hname
    simp at hname
  · have hparent : parent = walked [] target.parent.cancelled.components := by
      rw [walked_of_enter hnames.entered, parent_beside]
      rfl
    rw [walked_of_not_mem target.parent.parentMark_not_mem_cancelled, List.nil_append] at hparent
    exact ⟨by rw [name_beside, hparent], he⟩

/-- The temporary file is new, and has a name that was drawn. -/
theorem temporaryPlace_eq_ok {target : Route} {draws : List Draw} {place : Place}
    (h : t.temporaryPlace target draws = .ok place) :
    ∃ draw ∈ draws,
      place = target.parent.cancelled.components ++ [temporaryName target.name draw] ∧
        t.get? place = none := by
  induction draws with
  | nil => simp [Tree.temporaryPlace] at h
  | cons draw more ih =>
      unfold Tree.temporaryPlace at h
      split at h
      · rename_i found hfind
        rw [Except.ok.injEq] at h
        subst h
        rcases find_beside_eq_ok hfind with ⟨hplace, hnone⟩
        exact ⟨draw, List.mem_cons_self, hplace, hnone.symm⟩
      · rcases ih h with ⟨other, hother, hplace⟩
        exact ⟨other, List.mem_cons_of_mem _ hother, hplace⟩
      · simp at h

/-- What is left to do once the temporary file is there and its document is
    admitted, as if it were written at once. -/
def replaced (ready : Tree) (target : Route) (document : Document) : Result WriteFault Unit :=
  match target.isNameless, ready.find target with
  | true, .ok _ => ⟨.error (.files .busy), ready⟩
  | _, _ => writePlainly ready target document

/-- A file beside the target is not on the way to it, nor at its end. -/
theorem find_put_beside {ready : Tree} {parent : Place} {target : Route} {name : String}
    {e : Entry} (henter : ready.enter [] target.parent.way = .ok parent)
    (hfree : ready.get? (parent ++ [name]) = none) (hname : name ≠ target.name) :
    (ready.put (parent ++ [name]) e).find target = ready.find target := by
  have hentered : (ready.put (parent ++ [name]) e).enter [] target.parent.way = .ok parent :=
    enter_of_directories (fun _ => directory_put (by simp [hfree])) henter
  cases htarget : target.isNameless with
  | false =>
      have hne : parent ++ [target.name] ≠ parent ++ [name] := by
        intro h
        exact hname (by simpa using h.symm)
      simp only [find_of_named htarget, henter, hentered, Except.bind, get?_put_of_ne hne]
  | true =>
      -- The way goes on to the parent at most, and that is not where the file is.
      suffices hway : (ready.put (parent ++ [name]) e).enter [] target.way =
          ready.enter [] target.way by
        rw [find_of_nameless htarget, find_of_nameless htarget, hway]
      by_cases hnil : target.components = []
      · have hparent : target.way = target.parent.way := by
          simp [Route.way, Route.parent, hnil]
        rw [hparent, henter, hentered]
      · have hmark : target.name = parentMark := by
          simpa [Route.isNameless, hnil] using htarget
        have habove : parent.dropLast ≠ parent ++ [name] := by
          intro h
          have hlength := congrArg List.length h
          rw [List.length_dropLast, List.length_append, List.length_singleton] at hlength
          omega
        rw [Route.way_eq hnil, enter_append_of_ok henter, enter_append_of_ok hentered, hmark]
        simp only [Tree.enter, beq_self_eq_true, if_true, get?_put_of_ne habove]

theorem admitted_eq_ok {check : Check} {document : Document} :
    document.admitted check = .ok () ↔
      document.encodable = true ∧ check document.text = .ok () := by
  unfold Document.admitted
  by_cases h : document.encodable = true
  · cases hcheck : check document.text <;> simp [h, Except.mapError]
  · simp [h]

theorem admitted_none {document : Document} (h : document.encodable = true) :
    document.admitted Check.none = .ok () :=
  admitted_eq_ok.mpr ⟨h, rfl⟩

/-- Moving the temporary file is writing to the target at once, and a move that
    fails leaves nothing once the temporary file is taken away. -/
theorem move_temporary {ready : Tree} {parent : Place} {target : Route} {name : String}
    {document : Document} (henter : ready.enter [] target.parent.way = .ok parent)
    (hfree : ready.get? (parent ++ [name]) = none) (hname : name ≠ target.name)
    (hencodable : document.encodable) :
    let temporary := parent ++ [name]
    let filled := ready.put temporary (.file document.stored)
    (match filled.move temporary target with
      | .ok moved => (⟨.ok (), moved⟩ : Result WriteFault Unit)
      | .error fault => ⟨.error (.files fault), filled.remove temporary⟩) =
      replaced ready target document := by
  intro temporary filled
  have hremove : filled.remove temporary = ready := remove_put (by simp [temporary]) hfree
  have hmoved : filled.get? temporary = some (.file document.stored) :=
    get?_put_self (by simp [temporary])
  have hfind : filled.find target = ready.find target := find_put_beside henter hfree hname
  unfold Tree.move replaced
  rw [hfind, hmoved, hremove]
  cases hready : ready.find target with
  | error fault => cases target.isNameless <;> simp [writePlainly, hready]
  | ok found =>
      rcases found with ⟨place, e⟩
      cases htarget : target.isNameless with
      | true => simp
      | false =>
          cases e with
          | none => simp [writePlainly, hready, admitted_none hencodable]
          | some e => cases e <;> simp [writePlainly, hready, admitted_none hencodable]

/-- Nothing of the temporary file is left over: writing through one is making
    directories, and then, if the temporary file can be made and its document is
    admitted, writing to the target at once. -/
theorem writeAtomically_eq (check : Check) (draws : List Draw) (t : Tree) (target : Route)
    (document : Document) :
    writeAtomically check draws t target document =
      match makeDirectories t target.parent with
      | ⟨.error fault, after⟩ => ⟨.error (.files fault), after⟩
      | ⟨.ok (), ready⟩ =>
        match ready.temporaryPlace target draws, document.admitted check with
        | .error fault, _ => ⟨.error (.files fault), ready⟩
        | .ok _, .error fault => ⟨.error fault, ready⟩
        | .ok _, .ok () => replaced ready target document := by
  have hentered := enter_makeDirectories (t := t) (r := target.parent)
  unfold writeAtomically
  generalize makeDirectories t target.parent = made at hentered ⊢
  rcases made with ⟨fault | _, ready⟩
  · rfl
  rcases hentered rfl with ⟨parent, henter⟩
  dsimp only at henter ⊢
  cases hplace : ready.temporaryPlace target draws with
  | error fault => rfl
  | ok temporary =>
      rcases temporaryPlace_eq_ok hplace with ⟨draw, -, htemporary, hfree⟩
      have hparent : parent = target.parent.cancelled.components := by
        rw [walked_of_enter henter, cancelled_components]
      rw [← hparent] at htemporary
      subst htemporary
      cases hadmitted : document.admitted check with
      | error fault =>
          dsimp only
          rw [remove_put (by simp) hfree]
      | ok _ =>
          exact move_temporary henter hfree (temporaryName_ne target.name draw).1
            (admitted_eq_ok.mp hadmitted).1

theorem writePlainly_of_names {target : Route} {parent : Place} {document : Document}
    (h : t.Names target parent) (hplace : t.get? (parent ++ [target.name]) ≠ some .directory) :
    writePlainly t target document = ⟨document.admitted Check.none,
      t.put (parent ++ [target.name]) (.file document.stored)⟩ := by
  unfold writePlainly
  rw [h.find]
  split
  · rename_i heq
    simp only [Except.ok.injEq, Prod.mk.injEq] at heq
    exact absurd heq.2 hplace
  · rename_i heq
    simp only [Except.ok.injEq, Prod.mk.injEq] at heq
    rw [heq.1]
  · rename_i heq
    simp at heq

/-- Writing plainly fails and leaves the tree as it is, or it puts one file, even
    if its document turns out not to be encodable. -/
theorem writePlainly_cases (t : Tree) (target : Route) (document : Document) :
    (∃ fault, writePlainly t target document = ⟨.error (.files fault), t⟩) ∨
      ∃ parent, t.Names target parent ∧ t.get? (parent ++ [target.name]) ≠ some .directory ∧
        writePlainly t target document = ⟨document.admitted Check.none,
          t.put (parent ++ [target.name]) (.file document.stored)⟩ := by
  by_cases hnamed : ∃ parent, t.Names target parent ∧
      t.get? (parent ++ [target.name]) ≠ some .directory
  · rcases hnamed with ⟨parent, hnames, hplace⟩
    exact .inr ⟨parent, hnames, hplace, writePlainly_of_names hnames hplace⟩
  · unfold writePlainly
    split
    · exact .inl ⟨_, rfl⟩
    · rename_i place e he hfind
      rcases names_of_find hfind he with ⟨parent, hnames, rfl, rfl⟩
      exact absurd ⟨parent, hnames, he⟩ hnamed
    · exact .inl ⟨_, rfl⟩

/-- Writing through a temporary file fails and leaves the directories that were
    made, or it succeeds and puts one file besides. -/
theorem writeAtomically_cases (check : Check) (draws : List Draw) (t : Tree) (target : Route)
    (document : Document) :
    let ready := (makeDirectories t target.parent).tree
    (∃ fault, writeAtomically check draws t target document = ⟨.error fault, ready⟩) ∨
      ∃ parent, (makeDirectories t target.parent).outcome = .ok () ∧
        ready.Names target parent ∧ ready.get? (parent ++ [target.name]) ≠ some .directory ∧
        document.admitted check = .ok () ∧
        writeAtomically check draws t target document =
          ⟨.ok (), ready.put (parent ++ [target.name]) (.file document.stored)⟩ := by
  rw [writeAtomically_eq]
  rcases makeDirectories t target.parent with ⟨fault | _, ready⟩
  · exact .inl ⟨_, rfl⟩
  dsimp only
  cases hplace : ready.temporaryPlace target draws with
  | error fault => exact .inl ⟨_, rfl⟩
  | ok temporary =>
      cases hadmitted : document.admitted check with
      | error fault => exact .inl ⟨_, rfl⟩
      | ok _ =>
          -- From here on all is as if the document were written to the target at once.
          dsimp only [replaced]
          split
          · exact .inl ⟨_, rfl⟩
          · rcases writePlainly_cases ready target document with
              ⟨fault, h⟩ | ⟨parent, hnames, hold, h⟩
            · exact .inl ⟨_, h⟩
            · rw [admitted_none (admitted_eq_ok.mp hadmitted).1] at h
              exact .inr ⟨parent, rfl, hnames, hold, rfl, h⟩

theorem closed_writeAtomically (ht : t.Closed) (check : Check) (draws : List Draw)
    (target : Route) (document : Document) :
    (writeAtomically check draws t target document).tree.Closed := by
  have hready := closed_makeDirectories ht target.parent
  rcases writeAtomically_cases check draws t target document with
    ⟨fault, h⟩ | ⟨parent, -, hnames, hold, -, h⟩
  · rwa [h]
  · rw [h]
    exact hready.put (directory_of_enter hnames.entered get?_nil) hold

theorem closed_writeNew (ht : t.Closed) (check : Check) (draws : List Draw) (target : Route)
    (document : Document) : (writeNew check draws t target document).tree.Closed := by
  unfold writeNew
  split
  · exact ht
  · exact ht
  · exact closed_writeAtomically ht check draws target document

/-! ## Room for the temporary file -/

/-- A text of characters that take one byte each. -/
theorem utf8ByteSize_ofList {s : List Char} (h : ∀ c ∈ s, c.utf8Size = 1) :
    (String.ofList s).utf8ByteSize = s.length := by
  induction s with
  | nil => rfl
  | cons c rest ih =>
      rw [List.forall_mem_cons] at h
      rw [String.ofList_cons, String.utf8ByteSize_append, String.utf8ByteSize_singleton, h.1,
        ih h.2, List.length_cons]
      omega

theorem utf8Size_of_isDrawChar {c : Char} (hc : isDrawChar c = true) : c.utf8Size = 1 := by
  have hclass : isDrawChar c = ((decide (0x61 ≤ c.val) && decide (c.val ≤ 0x7a)) ||
      (decide (0x30 ≤ c.val) && decide (c.val ≤ 0x39)) || c == '_') := rfl
  have hascii : c.val ≤ 0x7f := by
    simp only [hclass, Bool.or_eq_true, Bool.and_eq_true, decide_eq_true_eq, beq_iff_eq] at hc
    rcases hc with (⟨-, h⟩ | ⟨-, h⟩) | rfl
    · exact UInt32.le_trans h (by decide)
    · exact UInt32.le_trans h (by decide)
    · decide
  simp [Char.utf8Size, hascii]

theorem utf8ByteSize_draw (draw : Draw) : (String.ofList draw.letters).utf8ByteSize = 8 := by
  rw [utf8ByteSize_ofList fun c hc => utf8Size_of_isDrawChar (draw.drawn c hc), draw.length_eq]

theorem utf8ByteSize_temporaryName (target : String) (draw : Draw) :
    (temporaryName target draw).utf8ByteSize = target.utf8ByteSize + 14 := by
  have hdot : ".".utf8ByteSize = 1 := rfl
  have hending : ".tmp".utf8ByteSize = 4 := rfl
  simp only [temporaryName, String.utf8ByteSize_append, utf8ByteSize_draw]
  omega

theorem hasNull_append (a b : String) : hasNull (a ++ b) = (hasNull a || hasNull b) := by
  simp [hasNull]

theorem hasNull_temporaryName (target : String) (draw : Draw) :
    hasNull (temporaryName target draw) = hasNull target := by
  have hdraw : hasNull (String.ofList draw.letters) = false := by
    simp only [hasNull, String.toList_ofList, List.contains_eq_mem, decide_eq_false_iff_not]
    intro hnull
    exact absurd (draw.drawn _ hnull) (by decide)
  have hdot : hasNull "." = false := rfl
  have hending : hasNull ".tmp" = false := rfl
  simp only [temporaryName, hasNull_append, hdraw, hdot, hending, Bool.false_or, Bool.or_false]

/-- The route from the root to the directory of a target, and on to its name. -/
def Route.rooted (target : Route) : Route :=
  .fromRoot (target.parent.cancelled.components ++ [target.name])

/-- There is room for a temporary file beside a target: with fourteen more bytes neither its
    name nor its route from the root is too long. -/
structure Route.HasRoom (target : Route) : Prop where
  plain : hasNull target.rooted.text = false
  followed : target.rooted.text.utf8ByteSize + 14 ≤ routeLimit
  short : target.name.utf8ByteSize + 14 ≤ nameLimit

/-- A name that is drawn for the temporary file is new in the directory of the target. -/
def Tree.HasNewName (t : Tree) (target : Route) (draws : List Draw) : Prop :=
  ∃ draw ∈ draws,
    t.get? (target.parent.cancelled.components ++ [temporaryName target.name draw]) = none

/-- Routes that differ in their last names only are written alike up to there. -/
theorem exists_text_concat (way : List String) :
    ∃ front, ∀ last, (Route.fromRoot (way ++ [last])).text = front ++ last := by
  suffices hjoined : ∃ front, ∀ last, Text.joined "/" (way ++ [last]) = front ++ last by
    rcases hjoined with ⟨front, hfront⟩
    exact ⟨"/" ++ front, fun last => by
      rw [Route.fromRoot, Route.text, hfront, String.append_assoc]⟩
  induction way with
  | nil => exact ⟨"", fun last => by simp [Text.joined]⟩
  | cons c rest ih =>
      rcases ih with ⟨front, hfront⟩
      refine ⟨c ++ "/" ++ front, fun last => ?_⟩
      have hcons : Text.joined "/" (c :: (rest ++ [last])) =
          c ++ "/" ++ Text.joined "/" (rest ++ [last]) := by cases rest <;> rfl
      rw [List.cons_append, hcons, hfront]
      simp only [String.append_assoc]

/-- The route to a temporary file is that of its target with fourteen bytes more. -/
theorem text_beside (target : Route) (draw : Draw) :
    hasNull (target.beside draw).text = hasNull target.rooted.text ∧
      (target.beside draw).text.utf8ByteSize = target.rooted.text.utf8ByteSize + 14 := by
  rcases exists_text_concat target.parent.cancelled.components with ⟨front, hfront⟩
  rw [Route.beside, Route.rooted, hfront, hfront]
  simp only [hasNull_append, hasNull_temporaryName, String.utf8ByteSize_append,
    utf8ByteSize_temporaryName, true_and]
  omega

/-- The temporary file can be looked for if there is room. -/
theorem Route.HasRoom.names_beside {target : Route} (hroom : target.HasRoom) {p : Place}
    (henter : t.enter [] target.parent.way = .ok p) (draw : Draw) :
    t.Names (target.beside draw) p := by
  rcases text_beside target draw with ⟨hnull, hsize⟩
  have hfollowed := hroom.followed
  refine ⟨named_beside target draw, ?_, ?_, enter_beside henter draw⟩
  · rw [Tree.checkRoute, hnull, hroom.plain, hsize, if_neg (by simp), if_neg (by omega)]
  · rw [name_beside, utf8ByteSize_temporaryName]
    exact hroom.short

/-- Where there is room, the temporary file can be made if a new name is drawn, and only
    then. -/
theorem temporaryPlace_of_hasRoom {target : Route} (hroom : target.HasRoom) {p : Place}
    (henter : t.enter [] target.parent.way = .ok p) (draws : List Draw) :
    (t.HasNewName target draws ∧ ∃ place, t.temporaryPlace target draws = .ok place) ∨
      ¬ t.HasNewName target draws ∧ t.temporaryPlace target draws = .error .alreadyExists := by
  induction draws with
  | nil => exact .inr ⟨by simp [Tree.HasNewName], rfl⟩
  | cons draw more ih =>
      have hp : p = target.parent.cancelled.components := walked_of_enter henter
      have hfind := (hroom.names_beside henter draw).find
      rw [name_beside, hp] at hfind
      unfold Tree.temporaryPlace
      rw [hfind]
      unfold Tree.HasNewName
      cases hget : t.get? (target.parent.cancelled.components ++
          [temporaryName target.name draw]) with
      | none => exact .inl ⟨⟨draw, List.mem_cons_self, hget⟩, _, rfl⟩
      | some e =>
          -- The draw is lost, so that it depends on the others.
          simpa [Tree.HasNewName, hget] using ih

/-- Where there is no room, the temporary file is not made, whatever is drawn. -/
theorem temporaryPlace_of_not_hasRoom {target : Route} (hroom : ¬ target.HasRoom)
    {draws : List Draw} (hdraws : draws ≠ []) {p : Place}
    (henter : t.enter [] target.parent.way = .ok p) :
    ∃ fault, (fault = .nullCharacter ∨ fault = .nameTooLong) ∧
      t.temporaryPlace target draws = .error fault := by
  rcases List.exists_cons_of_ne_nil hdraws with ⟨draw, more, rfl⟩
  rcases text_beside target draw with ⟨hnull, hsize⟩
  suffices hfind : ∃ fault, (fault = .nullCharacter ∨ fault = .nameTooLong) ∧
      t.find (target.beside draw) = .error fault by
    rcases hfind with ⟨fault, hfault, hfind⟩
    exact ⟨fault, hfault, by rw [Tree.temporaryPlace, hfind]⟩
  have hname : (target.beside draw).name.utf8ByteSize = target.name.utf8ByteSize + 14 := by
    rw [name_beside, utf8ByteSize_temporaryName]
  rw [find_of_named (named_beside target draw), enter_beside henter draw, Tree.checkRoute, hnull,
    hsize, hname]
  -- What is checked in turn: null characters, the whole route, and the name.
  by_cases hplain : hasNull target.rooted.text = true
  · exact ⟨.nullCharacter, .inl rfl, by simp [hplain, Except.bind]⟩
  · by_cases hlong : routeLimit < target.rooted.text.utf8ByteSize + 14
    · exact ⟨.nameTooLong, .inr rfl, by simp [hplain, hlong, Except.bind]⟩
    · have hwide : nameLimit < target.name.utf8ByteSize + 14 := by
        by_contra hshort
        exact hroom ⟨by simpa using hplain, by omega, by omega⟩
      exact ⟨.nameTooLong, .inr rfl, by simp [hplain, hlong, hwide, Except.bind]⟩

/-! ## Calls of a writer -/

/-- A call of a writer. -/
structure Call where
  target : Route
  document : Document
  /-- What is drawn for the name of the temporary file. -/
  draws : List Draw
  /-- Whether the writer's check is made. -/
  checked : Bool
  /-- Whether a target that is there is refused. -/
  fresh : Bool

namespace Call

/-- The check that a call makes, for a writer with a check. -/
def used (c : Call) (check : Check) : Check :=
  if c.checked then check else Check.none

/-- What a call does, for a writer with a check. -/
def perform (c : Call) (check : Check) (t : Tree) : Result WriteFault Unit :=
  if c.fresh then writeNew (c.used check) c.draws t c.target c.document
  else writeAtomically (c.used check) c.draws t c.target c.document

/-- What a call does to the tree. -/
structure Effect (c : Call) (check : Check) (before : Tree) (result : Result WriteFault Unit) :
    Prop where
  /-- If it succeeds, the file that its route leads to has the new content, and
      all other files are as before. -/
  written : result.outcome = .ok () → ∃ place,
    result.tree.find c.target = .ok (place, some (.file c.document.text.toUTF8)) ∧
      ∀ p content, p ≠ place →
        (result.tree.get? p = some (.file content) ↔ before.get? p = some (.file content))
  /-- If it fails, all files are as before. -/
  failed : ∀ fault, result.outcome = .error fault → ∀ p content,
    (result.tree.get? p = some (.file content) ↔ before.get? p = some (.file content))
  /-- No directory is lost. -/
  kept : ∀ p, before.get? p = some .directory → result.tree.get? p = some .directory
  /-- A new directory was missing, and a parent of the route names it. -/
  made : ∀ p, before.get? p ≠ some .directory → result.tree.get? p = some .directory →
    before.get? p = none ∧
      ∃ outer : Route, outer.OnWay c.target.parent ∧ result.tree.enter [] outer.way = .ok p
  /-- A target that is there is refused, and nothing at all changes. -/
  refused : c.fresh = true → before.leads c.target = true →
    result = ⟨.error (.refused (.taken c.target.text)), before⟩
  /-- What is stored can be encoded and has passed the check, if it is made. -/
  passed : result.outcome = .ok () →
    c.document.encodable = true ∧ (c.checked = true → check c.document.text = .ok ())

end Call

/-- The tree after a sequence of calls. -/
def performAll (check : Check) (t : Tree) (calls : List Call) : Tree :=
  calls.foldl (fun before c => (c.perform check before).tree) t

theorem performAll_append (check : Check) (t : Tree) (done rest : List Call) :
    performAll check t (done ++ rest) = performAll check (performAll check t done) rest :=
  List.foldl_append

theorem closed_performAll (ht : t.Closed) (check : Check) (calls : List Call) :
    (performAll check t calls).Closed := by
  induction calls generalizing t with
  | nil => exact ht
  | cons c rest ih =>
      refine ih (t := (c.perform check t).tree) ?_
      unfold Call.perform
      split
      · exact closed_writeNew ht _ _ _ _
      · exact closed_writeAtomically ht _ _ _ _

theorem isThere_eq_true {r : Route} : t.isThere r = .ok true ↔ t.leads r = true := by
  unfold Tree.isThere Tree.leads Tree.look?
  cases t.find r with
  | error fault => cases fault <;> simp
  | ok found => simp

/-- A call that leaves the tree as it is has the effect of one that fails. -/
theorem effect_unchanged {c : Call} {check : Check} {fault : WriteFault}
    (hrefused : c.fresh = true → t.leads c.target = true →
      fault = .refused (.taken c.target.text)) :
    c.Effect check t ⟨.error fault, t⟩ where
  written h := by simp at h
  failed _ _ _ _ := Iff.rfl
  kept _ h := h
  made _ hnot h := absurd h hnot
  refused hfresh hleads := by rw [hrefused hfresh hleads]
  passed h := by simp at h

theorem effect_writeAtomically {c : Call} {check : Check}
    (hnew : c.fresh = true → t.leads c.target = false) :
    c.Effect check t (writeAtomically (c.used check) c.draws t c.target c.document) := by
  have hgrown := grown_makeDirectories t c.target.parent
  have hrefused : c.fresh = true → t.leads c.target = true → False := by
    intro hfresh hleads
    simp [hnew hfresh] at hleads
  rcases writeAtomically_cases (c.used check) c.draws t c.target c.document with
    ⟨fault, h⟩ | ⟨parent, -, hnames, hold, hadmitted, h⟩
  · rw [h]
    exact {
      written := by simp
      failed := fun _ _ _ _ => hgrown.file_iff
      kept := fun _ hp => hgrown.kept hp
      made := fun _ hnot hdir => hgrown.made hnot hdir
      refused := fun hfresh hleads => (hrefused hfresh hleads).elim
      passed := by simp }
  · rw [h]
    rcases admitted_eq_ok.mp hadmitted with ⟨hencodable, hcheck⟩
    have hstored : c.document.stored = c.document.text.toUTF8 := by
      rw [Document.stored, if_pos hencodable]
    -- The file takes no directory's place, so that all ways stay open.
    have hdirs : ∀ p, (makeDirectories t c.target.parent).tree.get? p = some .directory →
        ((makeDirectories t c.target.parent).tree.put (parent ++ [c.target.name])
          (.file c.document.stored)).get? p = some .directory :=
      fun _ => directory_put hold
    refine {
      written := fun _ => ⟨parent ++ [c.target.name], ?_, ?_⟩
      failed := by simp
      kept := fun p hp => hdirs p (hgrown.kept hp)
      made := ?_
      refused := fun hfresh hleads => (hrefused hfresh hleads).elim
      passed := fun _ => ⟨hencodable, fun hc => by simpa [Call.used, hc] using hcheck⟩ }
    · rw [(hnames.of_directories hdirs).find, get?_put_self (by simp), hstored]
    · intro p content hp
      rw [get?_put_of_ne hp]
      exact hgrown.file_iff
    · intro p hnot hdir
      rcases hgrown.made hnot (directory_of_put (by simp) hdir) with ⟨hnone, part, hpart, henter⟩
      exact ⟨hnone, part, hpart, enter_of_directories hdirs henter⟩

/-- Every call has the effect, on every tree. -/
theorem effect_perform (c : Call) (check : Check) (t : Tree) :
    c.Effect check t (c.perform check t) := by
  unfold Call.perform
  by_cases hfresh : c.fresh = true
  · rw [if_pos hfresh]
    unfold writeNew
    have hthere := isThere_eq_true (t := t) (r := c.target)
    cases h : t.isThere c.target with
    | error fault =>
        refine effect_unchanged fun _ hleads => ?_
        simp [h] at hthere
        simp [hthere] at hleads
    | ok there =>
        cases there with
        | true => exact effect_unchanged fun _ _ => rfl
        | false =>
            refine effect_writeAtomically fun _ => ?_
            simpa [h] using hthere
  · rw [if_neg hfresh]
    exact effect_writeAtomically fun h => absurd h hfresh

/-! ## Calls that succeed -/

/-- Nothing in the tree keeps a file from being written at the end of a route
    without leads to parents: no file is on the way, no directory at its end, nothing is
    too long, and a temporary file can be made with what is drawn. -/
structure Tree.Accepts (t : Tree) (target : Route) (draws : List Draw) : Prop where
  way : t.FreeAlong target.parent
  shallow : target.parent.components.length ≤ directoryLimit
  named : target.isNameless = false
  followed : Tree.checkRoute target = .ok ()
  short : target.name.utf8ByteSize ≤ nameLimit
  place : t.get? target.way ≠ some .directory
  room : target.HasRoom
  drawn : t.HasNewName target draws

/-- A document that is admitted is written where nothing stands in the way. -/
theorem Tree.Accepts.writeAtomically {target : Route} {draws : List Draw} {check : Check}
    {document : Document} (h : t.Accepts target draws)
    (hadmitted : document.admitted check = .ok ()) :
    (writeAtomically check draws t target document).outcome = .ok () := by
  have hgrown := grown_makeDirectories t target.parent
  rcases h.way.makeDirectories h.shallow with ⟨hok, henter⟩
  have hway : target.way = target.parent.way ++ [target.name] :=
    Route.way_eq (Route.isNameless_eq_false.mp h.named).1
  rw [writeAtomically_eq]
  generalize makeDirectories t target.parent = result at hok henter hgrown ⊢
  rcases result with ⟨outcome, ready⟩
  dsimp only at hok henter hgrown ⊢
  subst hok
  -- The name that was new before the directories were made still is.
  have hdrawn : ready.HasNewName target draws := by
    rcases h.drawn with ⟨draw, hdraw, hnone⟩
    refine ⟨draw, hdraw, ?_⟩
    rw [Route.cancelled_of_plain h.way.plain] at hnone ⊢
    rw [get?_of_grown hgrown h.way.plain, hnone]
  have hplace : ∃ place, ready.temporaryPlace target draws = .ok place := by
    rcases temporaryPlace_of_hasRoom h.room henter draws with ⟨-, hplace⟩ | ⟨hnone, -⟩
    · exact hplace
    · exact absurd hdrawn hnone
  have hnames : ready.Names target target.parent.way :=
    ⟨h.named, h.followed, h.short, henter⟩
  have hold : ready.get? (target.parent.way ++ [target.name]) ≠ some .directory := by
    rw [get?_of_grown hgrown h.way.plain, ← hway]
    exact h.place
  rcases hplace with ⟨place, hplace⟩
  dsimp only
  rw [hplace, hadmitted]
  dsimp only [replaced]
  rw [h.named]
  dsimp only
  rw [writePlainly_of_names hnames hold]
  exact admitted_none (admitted_eq_ok.mp hadmitted).1

/-- A call whose document passes succeeds where nothing stands in the way. -/
theorem succeeds_perform (c : Call) (check : Check) (t : Tree) (h : t.Accepts c.target c.draws)
    (hencodable : c.document.encodable = true)
    (hchecked : c.checked = true → check c.document.text = .ok ())
    (hnew : c.fresh = true → t.get? c.target.way = none) :
    (c.perform check t).outcome = .ok () := by
  have hadmitted : c.document.admitted (c.used check) = .ok () := by
    refine admitted_eq_ok.mpr ⟨hencodable, ?_⟩
    unfold Call.used
    split
    · rename_i hc
      exact hchecked hc
    · rfl
  unfold Call.perform
  by_cases hfresh : c.fresh = true
  · rw [if_pos hfresh]
    -- The target is not there, whether the way to it is there or not.
    have hthere : t.isThere c.target = .ok false := by
      unfold Tree.isThere
      rcases h.way.enter_cases with henter | hmissing
      · have hnames : t.Names c.target c.target.parent.way :=
          ⟨h.named, h.followed, h.short, henter⟩
        rw [hnames.find, ← Route.way_eq hnames.ne_nil, hnew hfresh]
        rfl
      · rw [find_of_named h.named, h.followed, hmissing]
        rfl
    unfold writeNew
    rw [hthere]
    exact h.writeAtomically hadmitted
  · rw [if_neg hfresh]
    exact h.writeAtomically hadmitted

/-- What is in a file after calls was there before, or a call has stored it. -/
theorem stored_performAll (check : Check) (t : Tree) (calls : List Call) {p : Place}
    {content : ByteArray} (h : (performAll check t calls).get? p = some (.file content)) :
    t.get? p = some (.file content) ∨ ∃ c ∈ calls, c.document.encodable = true ∧
      content = c.document.text.toUTF8 ∧ (c.checked = true → check c.document.text = .ok ()) := by
  induction calls generalizing t with
  | nil => exact .inl h
  | cons c rest ih =>
      have heffect := effect_perform c check t
      rcases ih (c.perform check t).tree h with hfile | ⟨d, hd, hstored⟩
      · cases houtcome : (c.perform check t).outcome with
        | error fault => exact .inl ((heffect.failed fault houtcome p content).mp hfile)
        | ok _ =>
            rcases heffect.written houtcome with ⟨place, hfind, hothers⟩
            by_cases hp : p = place
            · -- This call has written the file, so the content is that of its document.
              rcases names_of_find hfind (by simp) with ⟨parent, -, rfl, hget⟩
              rw [hp, ← hget, Option.some.injEq, Entry.file.injEq] at hfile
              rcases heffect.passed houtcome with ⟨hencodable, hchecked⟩
              exact .inr ⟨c, List.mem_cons_self, hencodable, hfile.symm, hchecked⟩
            · exact .inl ((hothers p content hp).mp hfile)
      · exact .inr ⟨d, List.mem_cons_of_mem _ hd, hstored⟩

/-- Writing is atomic. In every sequence of calls of a writer, whatever its check
    and whatever the tree, each call has the effect of `Call.Effect` on the tree
    that the calls before it leave, and it succeeds if its document passes and
    nothing stands in the way. What is in a file at the end was in it at the start,
    or has been stored by a call whose document has passed. -/
theorem calls_are_atomic (check : Check) (t : Tree) (calls : List Call) :
    (∀ done c rest, calls = done ++ c :: rest →
      let before := performAll check t done
      let result := c.perform check before
      performAll check t (done ++ [c]) = result.tree ∧ c.Effect check before result ∧
        (before.Accepts c.target c.draws → c.document.encodable = true →
          (c.checked = true → check c.document.text = .ok ()) →
          (c.fresh = true → before.get? c.target.way = none) →
          result.outcome = .ok ())) ∧
    ∀ p content, (performAll check t calls).get? p = some (.file content) →
      t.get? p = some (.file content) ∨ ∃ c ∈ calls, c.document.encodable = true ∧
        content = c.document.text.toUTF8 ∧
        (c.checked = true → check c.document.text = .ok ()) := by
  constructor
  · intro done c rest _ before result
    exact ⟨performAll_append check t done [c], effect_perform c check before,
      succeeds_perform c check before⟩
  · intro p content h
    exact stored_performAll check t calls h

/-- A call for a new file in a directory that is missing. -/
def firstCall : Call := ⟨.fromRoot ["a", "b"], "new", [.ofNumber 0], true, true⟩

theorem accepts_firstCall : ({} : Tree).Accepts firstCall.target firstCall.draws := by
  have houter : ∀ outer : Route, outer.OnWay firstCall.target.parent →
      outer = .fromRoot [] ∨ outer = .fromRoot ["a"] := by
    rintro ⟨start, part⟩ ⟨hstart, hpart⟩
    dsimp only at hstart hpart
    cases part with
    | nil => exact .inl (by rw [hstart]; rfl)
    | cons c rest =>
        rcases List.cons_prefix_cons.mp hpart with ⟨rfl, hrest⟩
        rw [List.prefix_nil.mp hrest, hstart]
        exact .inr rfl
  have hway : ({} : Tree).FreeAlong firstCall.target.parent := by
    refine ⟨by decide, rfl, by decide, fun outer ho => ?_, fun outer ho => ?_⟩
    · rcases houter outer ho with rfl | rfl <;> decide
    · rcases houter outer ho with rfl | rfl <;> decide
  exact {
    way := hway
    shallow := by decide
    named := by decide
    followed := by decide
    short := by decide
    place := by decide
    room := ⟨by decide, by decide, by decide⟩
    drawn := ⟨.ofNumber 0, by decide, by decide⟩ }

/-- The first call is made where nothing stands in the way, and stores its document. -/
theorem calls_are_atomic_stored :
    ({} : Tree).Accepts firstCall.target firstCall.draws ∧
      (firstCall.perform Check.braces {}).outcome = .ok () ∧
      (performAll Check.braces {} [firstCall]).get? ["a", "b"] = some (.file "new".toUTF8) := by
  rcases (calls_are_atomic Check.braces {} [firstCall]).1 [] firstCall [] rfl with
    ⟨hafter, heffect, hsucceeds⟩
  have hok := hsucceeds accepts_firstCall rfl (fun _ => by decide +kernel) (fun _ => by decide)
  rcases heffect.written hok with ⟨place, hfind, -⟩
  rcases names_of_find hfind (by simp) with ⟨parent, hnames, rfl, hget⟩
  refine ⟨accepts_firstCall, hok, ?_⟩
  rw [hnames.place_eq] at hget
  rw [← List.nil_append [firstCall], hafter]
  exact hget.symm

end Files

end Afx
