import Afx.Markup.Lexeme
import Afx.Markup.Fault

/-!
# A Cursor in a Source

Tools that look into AFX by hand walk through a source with a cursor. The
cursor keeps what lies behind it and what lies before it, so the position can
neither leave the source nor lose a character of it.

Offsets and counts are integers. A place before the start of the source is
counted back from its end, once: the reading fails if it lies before the start
even so, and a count whose end lies before the cursor takes nothing.

## Main definitions

* `Cursor`: What lies behind and before a place in a source.
* `Cursor.peek`: The character at an offset from the cursor.
* `Cursor.consume`: Takes a number of characters.
* `Cursor.expect`: Takes a given text or refuses the source.
* `Cursor.skipBlank`: Passes over blanks.
* `Request`, `Answer`: What a cursor is asked for, and what it says.
* `Cursor.perform`: The answer to a request, and the cursor after it.
* `Cursor.performAll`: The cursor after a sequence of requests.

## Theorems

* `Cursor.source_advance`: Moving the cursor keeps the source.
-/

namespace Afx

namespace Markup

/-- A place in a source: what lies behind it, nearest first, and what lies before it. -/
structure Cursor where
  behind : List Char
  ahead : List Char
  deriving DecidableEq, Repr

namespace Cursor

/-- The start of a source. -/
def start (source : List Char) : Cursor :=
  ⟨[], source⟩

/-- The source that the cursor walks through. -/
def source (c : Cursor) : List Char :=
  c.behind.reverse ++ c.ahead

/-- The number of characters behind the cursor. -/
def position (c : Cursor) : Nat :=
  c.behind.length

/-- Nothing lies before the cursor. -/
def isEnd (c : Cursor) : Bool :=
  c.ahead.isEmpty

/-- Moves over the next characters, at most to the end. -/
def advance (c : Cursor) (count : Nat) : Cursor :=
  ⟨(c.ahead.take count).reverse ++ c.behind, c.ahead.drop count⟩

/-- The place of an index that counts from the end if it is negative, or
    nothing if it lies before the start even so. -/
def fromStart? (length : Nat) (index : Int) : Option Nat :=
  if 0 ≤ index then some index.toNat
  else if 0 ≤ index + length then some (index + length).toNat
  else none

/-- The character at an offset, or nothing past the end. A place before the
    start counts from the end and fails if it is not there either. -/
def peek (c : Cursor) (offset : Int) : Except Unit (Option Char) :=
  match fromStart? c.source.length (c.position + offset) with
  | some index => .ok c.source[index]?
  | none => .error ()

/-- The text stands directly before the cursor. -/
def startsWith (c : Cursor) (text : String) : Bool :=
  text.toList.isPrefixOf c.ahead

/-- How many characters a count takes: up to an end which, if it lies before
    the start, counts from the end of the source. -/
def reach (c : Cursor) (count : Int) : Nat :=
  min ((fromStart? c.source.length (c.position + count)).getD 0 - c.position) c.ahead.length

/-- Takes characters up to a count, with the cursor behind them. -/
def consume (c : Cursor) (count : Int) : String × Cursor :=
  (String.ofList (c.ahead.take (c.reach count)), c.advance (c.reach count))

/-- Takes the expected text; at any other text the source is refused. -/
def expect (c : Cursor) (text context : String) : Except Fault Cursor :=
  if c.isEnd || !c.startsWith text then
    .error ⟨.textExpected text context c.ahead.head?, c.ahead⟩
  else .ok (c.advance text.length)

/-- A blank stands directly before the cursor. -/
def isBlank (c : Cursor) : Bool :=
  c.ahead.head?.any Text.isBlank

/-- A character of a name stands directly before the cursor. -/
def isNameChar (c : Cursor) : Bool :=
  c.ahead.head?.any Markup.isNameChar

/-- Passes over the blanks before the cursor. -/
def skipBlank (c : Cursor) : Cursor :=
  c.advance (c.ahead.takeWhile Text.isBlank).length

/-- A message with the location of a position, which is the cursor's own unless
    another one is given, and that position. -/
def report (c : Cursor) (message : String) (position : Option Int) : String × Int :=
  let place := position.getD c.position
  (Text.annotated message c.source (some place), place)

@[simp]
theorem source_advance (c : Cursor) (count : Nat) : (c.advance count).source = c.source := by
  simp [advance, source]

end Cursor

/-- What a cursor can be asked for. -/
inductive Request where
  | isEnd
  | peek (offset : Int)
  | startsWith (text : String)
  | consume (count : Int)
  | expect (text context : String)
  | isBlank
  | isNameChar
  | skipBlank
  | report (message : String) (position : Option Int)
  deriving DecidableEq, Repr

/-- What a cursor says to a request. Two of the answers are failures: a place
    that is not there, and a source that is refused. -/
inductive Answer where
  | truth (value : Bool)
  | character (found : Option Char)
  | text (taken : String)
  | done
  | report (message : String) (position : Int)
  | outside
  | refused (fault : Fault)
  deriving DecidableEq, Repr

/-- The answer is a failure. -/
def Answer.isFailure : Answer → Bool
  | outside => true
  | refused _ => true
  | _ => false

namespace Cursor

/-- The answer to a request, and the cursor after it. -/
def perform (c : Cursor) : Request → Answer × Cursor
  | .isEnd => (.truth c.isEnd, c)
  | .peek offset =>
    match c.peek offset with
    | .ok found => (.character found, c)
    | .error () => (.outside, c)
  | .startsWith wanted => (.truth (c.startsWith wanted), c)
  | .consume count =>
    let (taken, after) := c.consume count
    (.text taken, after)
  | .expect wanted context =>
    match c.expect wanted context with
    | .ok after => (.done, after)
    | .error fault => (.refused fault, c)
  | .isBlank => (.truth c.isBlank, c)
  | .isNameChar => (.truth c.isNameChar, c)
  | .skipBlank => (.done, c.skipBlank)
  | .report message position =>
    let (worded, place) := c.report message position
    (.report worded place, c)

/-- The cursor after a sequence of requests. -/
def performAll (c : Cursor) (requests : List Request) : Cursor :=
  requests.foldl (fun c request => (c.perform request).2) c

end Cursor

end Markup

end Afx
