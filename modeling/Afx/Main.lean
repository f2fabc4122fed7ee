import Afx.Command.Invocation

/-!
# The Program

The command works on a tree of files, so the program reads the files that the
arguments can lead to into a tree, runs the command on it, and then makes the
changes that the run made to the tree. A file is replaced by a temporary one
with its new content, so that it never holds a part of it.

## Main definitions

* `Program.load`: The files on the way to a route.
* `Program.store`: Makes the changes between two trees.
* `main`: Runs the command on the arguments of the program.
-/

namespace Afx

namespace Program

/-- What is at a place on disk. Reading tells a directory by the error it gives. -/
def entryAt? (path : String) : IO (Option Files.Entry) := do
  try
    return some (.file (← IO.FS.readBinFile path))
  catch
    | .inappropriateType _ 21 _ => return some .directory
    | _ => return none

/-- Adds what is on the way from a place to a route, and at it, to a tree. -/
def load (t : Files.Tree) (here : Files.Place) : List String → IO Files.Tree
  | [] => return t
  | name :: rest => do
    let next := if name == Files.parentMark then here.dropLast else here ++ [name]
    match ← entryAt? (Files.Route.fromRoot next).text with
    | some entry => load (if next.isEmpty then t else t.put next entry) next rest
    | none => load t next rest

/-- The texts among the arguments that may lead to files. -/
def candidates (arguments : List String) : List String :=
  match Command.scan {} arguments with
  | .ok given => given.arguments ++ given.options.map (·.2)
  | .error _ => []

/-- Makes one change on disk. -/
def apply (place : Files.Place) : Files.Entry → IO Unit
  | .directory => IO.FS.createDirAll (Files.Route.fromRoot place).text
  | .file content => do
    let path := (Files.Route.fromRoot place).text
    let temporary := path ++ ".tmp"
    IO.FS.writeBinFile temporary content
    IO.FS.rename temporary path

/-- Whether an entry is what was there before. -/
def isUnchanged : Option Files.Entry → Files.Entry → Bool
  | some .directory, .directory => true
  | some (.file old), .file new => old.toList == new.toList
  | _, _ => false

/-- Makes the changes between two trees on disk. -/
def store (before after : Files.Tree) : IO Unit :=
  after.entries.forM fun (place, entry) =>
    if isUnchanged (before.get? place) entry then return else apply place entry

/-- What the user is told about a condition that the command does not report. -/
def describe : Command.Crash → String
  | .unreadableData .malformed => "the settings file is not JSON"
  | .unreadableData .tooManyDigits => "a number in the settings file has too many digits"
  | .unreadableData .tooDeep => "the settings file is nested too deeply"
  | .badSettings .notARecord => "the settings are not a JSON object"
  | .badSettings _ => "the settings hold a reserved field"
  | .notText => "a file is not UTF-8 text"
  | .unstackable .unsuited => "the indentation in the settings is not a text"
  | .unencodable => "the settings hold half of a surrogate pair"
  | .unstackable .outOfRange | .unwritable =>
    "the indentation in the settings is too large a number"
  | .files .notFound => "a file or directory is missing"
  | .files .notADirectory => "something on the way to a file is not a directory"
  | .files .alreadyExists => "something is in the way of a directory or a temporary file"
  | .files .isADirectory => "a directory is in the way of a file"
  | .files .busy => "a directory cannot be replaced"
  | .files .nameTooLong => "the name of a file is too long"
  | .files .nullCharacter => "a path holds a null character"
  | .files .tooManyDirectories => "too many directories are missing"

end Program

end Afx

/-- Runs the command on the arguments of the program. -/
def main (arguments : List String) : IO UInt32 := do
  let here := Afx.Files.Route.fromRoot (Afx.Files.components (toString (← IO.currentDir)))
  let mut before : Afx.Files.Tree := {}
  for text in "" :: Afx.Program.candidates arguments do
    let route := Afx.Files.Route.ofText here text
    -- A path is looked up as it is written and with its leads to parents cancelled.
    before ← Afx.Program.load before [] route.way
    before ← Afx.Program.load before [] route.cancelled.components
  let draws := (List.range 100).map Afx.Files.Draw.ofNumber
  let ⟨report, after⟩ := Afx.Command.run draws before here arguments
  Afx.Program.store before after
  IO.print report.out
  IO.eprint report.err
  if let some crash := report.crash then
    IO.eprintln ("Error: " ++ Afx.Program.describe crash)
  return report.exitCode.toUInt32
