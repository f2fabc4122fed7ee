/-!
# Fusion Values

Fusion describes a page as a tree of objects: a value is a text, an expression,
a truth value, or an object of a named prototype whose entries assign values to
paths. A tree is written with one entry to a line and every object's entries
one level deeper than the object itself. How a level looks is left to the
caller, who gives the margin of each level.

## Main definitions

* `Value`: A value of Fusion.
* `escaped`: How a character is written inside a quoted text.
* `Value.layout`: The text of a value at a level of indentation.
* `Value.levels`: How many levels of indentation the text of a value takes.
-/

namespace Afx

namespace Fusion

/-- A value of Fusion. -/
inductive Value where
  | text (content : String)
  | expression (code : String)
  | boolean (value : Bool)
  | object (name : String) (entries : List (String × Value))
  deriving Inhabited

/-- Quotes and backslashes are protected by a backslash, and the null character
    is written as an escaped zero. -/
def escaped (c : Char) : List Char :=
  if c == '\\' || c == '\'' || c == '"' then ['\\', c]
  else if c == '\x00' then ['\\', '0']
  else [c]

/-- A text between single quotes. -/
def quotedText (content : String) : String :=
  "'" ++ String.ofList (content.toList.flatMap escaped) ++ "'"

/-- An expression between its marks. -/
def quotedCode (code : String) : String :=
  "$\x7b" ++ code ++ "\x7d"

namespace Value

mutual

/-- The text of a value whose object, if it is one, ends at the given level. -/
def layout (margin : Nat → String) (level : Nat) : Value → String
  | text content => quotedText content
  | expression code => quotedCode code
  | boolean value => if value then "true" else "false"
  | object name entries =>
    name ++ " \x7b\n" ++ layoutEntries margin (level + 1) entries ++ margin level ++ "\x7d"

/-- The lines of the entries of an object, at their level. -/
def layoutEntries (margin : Nat → String) (level : Nat) : List (String × Value) → String
  | [] => ""
  | (path, value) :: rest =>
    margin level ++ path ++ " = " ++ layout margin level value ++ "\n" ++
      layoutEntries margin level rest

end

mutual

/-- How many levels of indentation the text of a value takes: none on one line,
    and for an object its own and those of its entries. -/
def levels : Value → Nat
  | object _ entries => 1 + entryLevels entries
  | _ => 0

/-- How many levels the entries of an object take. -/
def entryLevels : List (String × Value) → Nat
  | [] => 0
  | (_, value) :: rest => max (max 1 (levels value)) (entryLevels rest)

end

end Value

end Fusion

end Afx
