import Afx.Data.Basic
import Afx.Fusion.Rendering

/-!
# Settings of a Conversion

Settings are read from a record. Fields with other names are ignored, and
values are taken as they are: where a text is needed, a value is written out by
its text. Only the indentation is more than written out, because levels of it
are stacked on one another.

A field may also take the place of the operation that writes the settings out,
so settings with such a field cannot be written out again.

## Main definitions

* `Settings`: The settings of a conversion.
* `Settings.ofFields`: The settings that consist of given fields.
* `Settings.ofDatum`: The settings that a record gives.
* `Settings.fields?`: The record that settings stand for.
* `Settings.vocabulary`: The names that the settings choose.
* `Settings.mended`: The settings with a stand-in for what is no character.
-/

namespace Afx

namespace Fusion

/-- The settings of a conversion. -/
structure Settings where
  /-- What every level adds to the indentation. -/
  indentation : Datum := .text "    "
  /-- The prototype of plain tags. -/
  tagPrototype : Datum := .text "Neos.Fusion:Tag"
  /-- The prototype of several siblings. -/
  joinPrototype : Datum := .text "Neos.Fusion:Join"
  /-- The prototype of a group of props. -/
  dataStructurePrototype : Datum := .text "Neos.Fusion:DataStructure"
  /-- The path of a tag's children. -/
  childrenProperty : Datum := .text "content"
  /-- The name of the blocks to be converted in a Fusion document. -/
  blockName : Datum := .text "afx"
  /-- The prototype that declared components extend. -/
  componentPrototype : Datum := .text "Neos.Fusion:Component"
  /-- Whether a declaration says how it was generated. -/
  addComment : Datum := .bool true
  /-- No field has taken the place of writing the settings out. -/
  exportable : Bool := true

namespace Settings

/-- Assigns a value to a field by its name; other names are ignored. -/
def assignField (s : Settings) (key : String) (value : Datum) : Settings :=
  match key with
  | "indentation" => { s with indentation := value }
  | "tag_prototype" => { s with tagPrototype := value }
  | "join_prototype" => { s with joinPrototype := value }
  | "data_structure_prototype" => { s with dataStructurePrototype := value }
  | "children_property" => { s with childrenProperty := value }
  | "dsl_identifier" => { s with blockName := value }
  | "component_prototype" => { s with componentPrototype := value }
  | "add_generation_comment" => { s with addComment := value }
  | "to_dict" => { s with exportable := false }
  | _ => s

/-- The settings that consist of given fields. -/
def ofFields (fields : List (String × Datum)) : Settings :=
  fields.foldl (fun s (key, value) => s.assignField key value) {}

/-- Sets one field by its name, which may be reserved. -/
def set (s : Settings) (key : String) (value : Datum) : Except RecordFault Settings :=
  match Reserved.ofName? key with
  | some reserved => reserved.set ofFields value
  | none => .ok (s.assignField key value)

/-- The settings that a record gives. -/
def ofDatum : Datum → Except RecordFault Settings
  | .record fields => fields.foldlM (fun s (key, value) => s.set key value) {}
  | _ => .error .notARecord

/-- The record that the settings stand for, unless they cannot be written out. -/
def fields? (s : Settings) : Option (List (String × Datum)) :=
  if s.exportable then
    some [("indentation", s.indentation), ("tag_prototype", s.tagPrototype),
      ("join_prototype", s.joinPrototype),
      ("data_structure_prototype", s.dataStructurePrototype),
      ("children_property", s.childrenProperty), ("dsl_identifier", s.blockName),
      ("component_prototype", s.componentPrototype), ("add_generation_comment", s.addComment)]
  else none

/-- The names that the settings choose. -/
def vocabulary (s : Settings) : Vocabulary where
  tag := s.tagPrototype.display
  join := s.joinPrototype.display
  dataStructure := s.dataStructurePrototype.display
  children := s.childrenProperty.display

/-- The settings without torn texts: `standIn` stands for each half in what is
    rendered. No block has a name with a half in it, so that the name is only
    shown, and its halves by their escapes. -/
def mended (s : Settings) (standIn : Char) : Settings :=
  let rendered := Datum.mended fun _ => [standIn]
  { s with
    indentation := rendered s.indentation
    tagPrototype := rendered s.tagPrototype
    joinPrototype := rendered s.joinPrototype
    dataStructurePrototype := rendered s.dataStructurePrototype
    childrenProperty := rendered s.childrenProperty
    componentPrototype := rendered s.componentPrototype
    blockName := s.blockName.mended Text.halfEscape }

end Settings

end Fusion

end Afx
