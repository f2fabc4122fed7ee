import Afx.Data.Basic
import Afx.Files.Store

/-!
# Where the Output Goes

Settings for the output say whether an existing file may be replaced, whether
braces are checked before writing, and whether the file is written through a
temporary one. A document is written with a line feed at its end.

## Main definitions

* `Mode`: What happens to an existing file.
* `OutputSettings`: The settings for the output.
* `OutputSettings.ofDatum`: The settings that a record gives.
* `OutputSettings.write`: Writes a document as the settings say.
-/

namespace Afx

namespace Command

/-- What happens to an existing file. -/
inductive Mode where
  | keep
  | replace
  deriving DecidableEq, Repr

namespace Mode

/-- The name of a mode in settings and options. -/
def label : Mode → String
  | keep => "error"
  | replace => "force"

/-- The mode of a name. -/
def ofLabel? (name : String) : Option Mode :=
  [keep, replace].find? fun mode => mode.label == name

end Mode

/-- The settings for the output. -/
structure OutputSettings where
  mode : Mode := .keep
  /-- Whether braces are checked before writing. -/
  checked : Datum := .bool true
  /-- Whether the file is written through a temporary one. -/
  atomic : Datum := .bool true
  /-- The mode was given by its name. -/
  named : Bool := true
  /-- No field has taken the place of writing the settings out. -/
  exportable : Bool := true

/-- Why data gives no settings for the output. -/
inductive OutputSettingsFault where
  | record (fault : RecordFault)
  | unknownMode (value : Datum)

/-- Why settings cannot be written out. -/
inductive ExportFault where
  /-- A field has taken the place of writing them out. -/
  | displaced
  /-- Their mode has no name. -/
  | unnamedMode
  deriving DecidableEq, Repr

/-- The wording for a mode that is not known. -/
def unknownModeMessage (value : Datum) : String :=
  value.literal ++ " is not a valid OutputMode"

namespace OutputSettings

/-- The mode that data stands for. -/
def modeOf? : Datum → Option Mode
  | .text name => Mode.ofLabel? name
  | _ => none

/-- Assigns a value to a field by its name, as it is; other names are ignored.
    A mode that is assigned so keeps files only if it is the name of that mode. -/
def assignField (s : OutputSettings) (key : String) (value : Datum) : OutputSettings :=
  match key with
  | "mode" => { s with mode := if modeOf? value == some .keep then .keep else .replace
                       named := false }
  | "validate_before_write" => { s with checked := value }
  | "atomic_write" => { s with atomic := value }
  | "to_dict" => { s with exportable := false }
  | _ => s

/-- The settings that consist of given fields. -/
def ofFields (fields : List (String × Datum)) : OutputSettings :=
  fields.foldl (fun s (key, value) => s.assignField key value) {}

/-- Sets one field by its name, which may be reserved; a mode has to be known. -/
def set (s : OutputSettings) (key : String) (value : Datum) :
    Except OutputSettingsFault OutputSettings :=
  if key == "mode" then
    match modeOf? value with
    | some mode => .ok { s with mode, named := true }
    | none => .error (.unknownMode value)
  else
    match Reserved.ofName? key with
    | some reserved => (reserved.set ofFields value).mapError .record
    | none => .ok (s.assignField key value)

/-- The settings that a record gives. -/
def ofDatum : Datum → Except OutputSettingsFault OutputSettings
  | .record fields => fields.foldlM (fun s (key, value) => s.set key value) {}
  | _ => .error (.record .notARecord)

/-- The record that the settings stand for, unless they cannot be written out. -/
def fields (s : OutputSettings) : Except ExportFault (List (String × Datum)) :=
  if !s.exportable then .error .displaced
  else if !s.named then .error .unnamedMode
  else
    .ok [("mode", .text s.mode.label), ("validate_before_write", s.checked),
      ("atomic_write", s.atomic)]

/-- The check that the settings ask for. -/
def check (s : OutputSettings) : Files.Check :=
  if s.checked.isTrue then Files.Check.braces else Files.Check.none

/-- Writes a document plainly: an existing file is refused first, if it is to be
    kept, then the document is checked, and then it is written. -/
def writePlainly (s : OutputSettings) (t : Files.Tree) (target : Files.Route)
    (document : Files.Document) : Files.Result Files.WriteFault Unit :=
  match s.mode, t.isThere target with
  | .keep, .error fault => ⟨.error (.files fault), t⟩
  | .keep, .ok true => ⟨.error (.refused (.taken target.text)), t⟩
  | _, _ =>
    match s.check document.text with
    | .error refusal => ⟨.error (.refused refusal), t⟩
    | .ok () => Files.writePlainly t target document

/-- Writes a document as the settings say. -/
def write (s : OutputSettings) (draws : List Files.Draw) (t : Files.Tree) (target : Files.Route)
    (document : Files.Document) : Files.Result Files.WriteFault Unit :=
  if s.atomic.isTrue then
    match s.mode with
    | .keep => Files.writeNew s.check draws t target document
    | .replace => Files.writeAtomically s.check draws t target document
  else s.writePlainly t target document

end OutputSettings

/-- The document with a line feed at its end. -/
def terminated (document : Files.Document) : Files.Document :=
  if document.text.toList.getLast? == some '\n' then document
  else { document with text := document.text ++ "\n" }

end Command

end Afx
