import Afx.Files.Path
import Afx.Fusion.Indentation
import Afx.Fusion.Settings
import Afx.Markup.Document

/-!
# Conversion of AFX to Fusion

A source is read without the blanks around it, rendered as one Fusion value,
and laid out at an indentation. The indentation is needed as soon as the
result takes more than one line, which is when the siblings that can be seen
are several or a tag; an indentation that cannot be stacked is then refused
before anything is rendered. One that cannot be written out is refused when the
levels that the result takes are known.

A component file declares a prototype that extends the base prototype of the
settings and has rendered Fusion as its renderer. A comment above it may say
how the file was generated. A component is called after its package and the
stem of its file's name. The words of a file name may be separated by any
characters, or only by a change to upper case or between letters and digits. The
component name keeps the ASCII letters and digits, drops all else, and starts
every word with a capital. A letter in lower case starts a word exactly when no
letter stands directly before it, so one flag is all that has to be remembered
while reading.

## Main definitions

* `takesLines`: Whether siblings are rendered as an object.
* `Indentation.write`: The text of a Fusion value.
* `generate`: The Fusion of a list of markup values.
* `render`: The Fusion of one markup value.
* `convert`: The Fusion of a source.
* `Settings.declaration`: The text of a declaration.
* `Text.pascal`: The capitalised words of a text, put together.
* `componentName`: The name of the component in a file.

## Theorems

* `Indentation.write_text`: Under an indentation of texts every value has a text.
-/

namespace Afx

namespace Text

/-! ## Names in Pascal case -/

/-- The capitalised words of a text; `inWord` says whether a letter stands
    directly before it. -/
def pascalFrom (inWord : Bool) : List Char → List Char
  | [] => []
  | c :: rest =>
    if c.isLower then (if inWord then c else c.toUpper) :: pascalFrom true rest
    else if c.isUpper then c :: pascalFrom true rest
    else if c.isDigit then c :: pascalFrom false rest
    else pascalFrom false rest

/-- The words of a text, each with a capital first letter, without separators. -/
def pascal (text : String) : String :=
  String.ofList (pascalFrom false text.toList)

end Text

namespace Fusion

/-! ## Conversion -/

/-- Visible siblings are rendered as an object if they are several or a tag. -/
def takesLines : List Markup → Bool
  | [] => false
  | [.element ..] => true
  | [_] => false
  | _ => true

/-- A rendering, if the indentation can be stacked as far as `nested` asks. -/
def Indentation.guarding {α : Type} (i : Indentation) (nested : Bool) (rendered : Except Fault α) :
    Except Failure α :=
  match nested, i.stacked with
  | true, .error fault => .error (.unstackable fault)
  | _, _ => rendered.mapError .unrenderable

/-- The text of a Fusion value, if all levels that it takes can be written out. -/
def Indentation.write (i : Indentation) (rendered : Value) : Except Failure String :=
  if (List.range rendered.levels).all i.isWritable then .ok (rendered.layout i.margin 0)
  else .error .unwritable

theorem Indentation.write_text (s t : String) (rendered : Value) :
    (Indentation.mk (.text s) (.text t)).write rendered =
      .ok (rendered.layout (Indentation.mk (.text s) (.text t)).margin 0) := by
  simp [write, isWritable_text]

namespace Settings

/-- The Fusion of a list of markup values, at an indentation. -/
def generate (s : Settings) (base : Datum) (values : List Markup) : Except Failure String :=
  let indentation : Indentation := ⟨base, s.indentation⟩
  (indentation.guarding (takesLines (visible values)) (siblings s.vocabulary budget values)).bind
    indentation.write

/-- The Fusion of one markup value, at an indentation; a comment has none. -/
def render (s : Settings) (base : Datum) (one : Markup) : Except Failure (Option String) :=
  let indentation : Indentation := ⟨base, s.indentation⟩
  (indentation.guarding (takesLines [one]) (value s.vocabulary budget one)).bind fun
    | some rendered => (indentation.write rendered).map some
    | none => .ok none

/-- The Fusion of a source, at an indentation. Blanks around the source are ignored. -/
def convert (s : Settings) (base : Datum) (source : String) : Except Failure String :=
  -- Positions in messages count from the first character that is no blank.
  let trimmed := Text.trim source.toList
  match Markup.read trimmed with
  | .ok values => s.generate base values
  | .error fault => .error (.unreadable trimmed fault)

end Settings

/-! ## Declarations -/

/-- The line of a comment, unless the settings or an empty comment omit it. -/
def Settings.commentLine (s : Settings) : Option String → String
  | some comment => if s.addComment.isTrue && comment != "" then "// " ++ comment ++ "\n" else ""
  | none => ""

/-- The declaration of a prototype with a renderer, which is already indented. -/
def Settings.declaration (s : Settings) (name renderer : String) (comment : Option String) :
    String :=
  s.commentLine comment ++ "prototype(" ++ name ++ ") < prototype(" ++
    s.componentPrototype.display ++ ") \x7b\n" ++ s.indentation.display ++ "renderer = " ++
    renderer ++ "\n\x7d\n"

/-- The name of the component of a package that a file declares. -/
def componentName (package path : String) : String :=
  package ++ ":" ++ Text.pascal (Files.stem (Files.lastName path))

end Fusion

end Afx
