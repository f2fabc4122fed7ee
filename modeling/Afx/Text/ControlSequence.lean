/-!
# Control Sequences

A text may hold control sequences, by which a terminal moves its cursor or
changes its colours. Output that goes to no terminal is shown without them.

A control sequence is the escape character and an opening bracket, then
parameters, then intermediates, then one final character. The three classes
are ranges of ASCII that do not meet, so there is one way to read a sequence,
and a text is read once from left to right, holding back what may still become
one. What turns out to be none is part of the text, and removing a sequence
never makes a new one of what stood around it.

## Main definitions

* `Stage`: How much of a control sequence has been read.
* `Filter`: The text that stays, and what is held back.
* `withoutSequences`: A text without its control sequences.
-/

namespace Afx

namespace Text

/-- The character that starts a control sequence. -/
def escapeMark : Char := '\x1b'

/-- The parameters of a control sequence: digits and the marks around them. -/
def isParameter (c : Char) : Bool :=
  '0' ≤ c && c ≤ '?'

/-- The characters between the parameters and the end of a control sequence. -/
def isIntermediate (c : Char) : Bool :=
  ' ' ≤ c && c ≤ '/'

/-- The characters that end a control sequence. -/
def isFinal (c : Char) : Bool :=
  '@' ≤ c && c ≤ '~'

/-- How much of a control sequence has been read: nothing, the escape
    character, the bracket with parameters, or intermediates as well. -/
inductive Stage where
  | outside
  | escape
  | parameters
  | intermediates
  deriving DecidableEq, Repr

namespace Stage

/-- The stage after a character that continues the sequence. -/
def next? : Stage → Char → Option Stage
  | outside, _ => none
  | escape, c => if c == '[' then some parameters else none
  | parameters, c =>
    if isParameter c then some parameters
    else if isIntermediate c then some intermediates
    else none
  | intermediates, c => if isIntermediate c then some intermediates else none

/-- Whether a character ends the sequence. -/
def ends : Stage → Char → Bool
  | parameters, c | intermediates, c => isFinal c
  | _, _ => false

end Stage

/-- The text that stays and the part of a sequence that is held back, both with
    the last character first. -/
structure Filter where
  kept : List Char := []
  held : List Char := []
  stage : Stage := .outside

namespace Filter

/-- Takes one character. -/
def add (f : Filter) (c : Char) : Filter :=
  if f.stage.ends c then { f with held := [], stage := .outside }
  else
    match f.stage.next? c with
    | some stage => { f with held := c :: f.held, stage }
    | none =>
      -- What was held back is no sequence, but this character may start one.
      if c == escapeMark then ⟨f.held ++ f.kept, [c], .escape⟩
      else ⟨c :: f.held ++ f.kept, [], .outside⟩

end Filter

/-- A text without its control sequences. -/
def withoutSequences (text : String) : String :=
  let f := text.toList.foldl Filter.add {}
  String.ofList (f.held ++ f.kept).reverse

end Text

end Afx
