import Afx.Text.Segments
import Afx.Text.Quoted

/-!
# Faults in a Source

A source that is not AFX is refused at its first fault. A fault has a cause
and the place where it lies. The place is kept as the part of the source from
there to the end: the reader only ever looks at what is left, so its faults do
not depend on what came before, and the position in the whole source is the
difference of two lengths.

## Main definitions

* `Cause`: Why a source is refused.
* `Cause.message`: The wording of each cause.
* `Fault`: A cause and the part of the source that starts where it lies.
* `Fault.position?`: The position of the fault in the whole source.
* `Fault.message`: The wording of a fault, with its location.
-/

namespace Afx

namespace Markup

/-- The constructs that have an end of their own to look for. -/
inductive Construct where
  | comment
  | quotation
  | expression
  | spread
  deriving DecidableEq, Repr

/-- The name of a construct in messages. -/
def Construct.label : Construct → String
  | comment => "comment"
  | quotation => "string literal"
  | expression => "expression"
  | spread => "spread"

/-- Why a source is refused. Where a character was found that does not belong
    there, `found` is that character, and `none` at the end of the source. -/
inductive Cause where
  /-- The source ends inside a tag's content. -/
  | unclosedTag (tag : String)
  /-- A closing tag where no tag is open. -/
  | strayClosingTag
  /-- The end of a construct is missing. -/
  | unterminated (construct : Construct)
  /-- The name of an opening tag is missing. -/
  | tagNameExpected (found : Option Char)
  /-- The name of a closing tag is missing. -/
  | closingNameExpected (found : Option Char)
  /-- Neither an attribute nor the end of the tag. -/
  | strayInTag (tag : String) (found : Option Char)
  /-- A particular text is missing. -/
  | textExpected (expected context : String) (found : Option Char)
  /-- An equals sign without a value after it. -/
  | valueExpected (owner : String) (found : Option Char)
  /-- A brace inside a tag that does not start a spread. -/
  | spreadExpected
  /-- A closing tag for another tag than the innermost open one. -/
  | mismatchedTag (closing opening : String)
  /-- More open tags than the reader follows. -/
  | nestedTooDeeply
  deriving DecidableEq, Repr

/-- How a message speaks of what was found. -/
def unexpected : Option Char → String
  | none => "Unexpected end of input"
  | some c => "Unexpected character " ++ Text.quoted (String.singleton c)

/-- The wording of a cause. -/
def Cause.message : Cause → String
  | unclosedTag tag => "Unexpected end of input, tag <" ++ tag ++ "> is not closed"
  | strayClosingTag => "Unexpected closing tag"
  | unterminated construct => "Unterminated " ++ construct.label
  | tagNameExpected found => unexpected found ++ ", expected tag name"
  | closingNameExpected found => unexpected found ++ ", expected closing tag name"
  | strayInTag tag found => unexpected found ++ " in tag <" ++ tag ++ ">"
  | textExpected expected context found =>
    unexpected found ++ " in " ++ context ++ ", expected " ++ Text.quoted expected
  | valueExpected owner found =>
    unexpected found ++ ", expected value of attribute " ++ Text.quoted owner
  | spreadExpected => "Expected spread '\x7b...expression\x7d' in tag"
  | mismatchedTag closing opening =>
    "Closing tag </" ++ closing ++ "> does not match opening tag <" ++ opening ++ ">"
  | nestedTooDeeply => "AFX nodes are nested too deeply to be parsed"

/-- A cause and the part of the source that starts where it lies. -/
structure Fault where
  cause : Cause
  rest : List Char
  deriving DecidableEq, Repr

namespace Fault

/-- Where the fault lies in the whole source. Nesting has no place of its own. -/
def position? (source : List Char) (fault : Fault) : Option Nat :=
  if fault.cause = .nestedTooDeeply then none else some (source.length - fault.rest.length)

/-- The wording of the fault, with its location in the source. -/
def message (source : List Char) (fault : Fault) : String :=
  Text.annotated fault.cause.message source ((fault.position? source).map fun p => (p : Int))

end Fault

end Markup

end Afx
