import Afx.Text.Printable

/-!
# Quoted Text

Messages show a piece of input between quotes, so that a reader can tell
where it begins and ends and what it holds. Single quotes are used unless the
text has a single quote and no double quote. The quote in use and the
backslash are escaped, tab and line breaks have short escapes, and every other
character that is not printable is written by its code point in the shortest
of three fixed widths.

A text is a sequence of characters. An escape in a data file can also name half
of a surrogate pair, which stands for no character. Such halves can be put
together with other text and can be shown, but they cannot be encoded, so what
holds one can be written to no file.

## Main definitions

* `quoteMark`: The quote that a text is put between.
* `escaped`: How one character is written between a given quote.
* `quoted`: The text between its quotes.
* `Point`: A character, or half of a pair.
* `halfEscape`: The escape that shows a half.
* `quotedPoints`: Code points between quotes.
* `spelled`: The text of code points, with something in place of each half.
-/

namespace Afx

namespace Text

/-- The hexadecimal digits of `n`, padded with zeros to `width`. -/
def hex (width n : Nat) : List Char :=
  let digits := Nat.toDigits 16 n
  List.replicate (width - digits.length) '0' ++ digits

/-- The double quote is used for a text with a single quote and no double one. -/
def quoteMark (s : List Char) : Char :=
  if s.contains '\'' && !s.contains '"' then '"' else '\''

/-- How a character is written between two marks. -/
def escaped (mark c : Char) : List Char :=
  if c == '\\' || c == mark then ['\\', c]
  else if c == '\t' then ['\\', 't']
  else if c == '\n' then ['\\', 'n']
  else if c == '\r' then ['\\', 'r']
  else if isPrintable c then [c]
  else if c.toNat < 0x100 then '\\' :: 'x' :: hex 2 c.toNat
  else if c.toNat < 0x10000 then '\\' :: 'u' :: hex 4 c.toNat
  else '\\' :: 'U' :: hex 8 c.toNat

/-- The text between quotes, with what could mislead a reader escaped. -/
def quoted (text : String) : String :=
  let s := text.toList
  let mark := quoteMark s
  String.ofList (mark :: s.flatMap (escaped mark) ++ [mark])

/-! ## Code points -/

/-- A code point of a text: a character, or half of a pair, which stands for none. -/
inductive Point where
  | char (value : Char)
  | half (unit : Nat)
  deriving DecidableEq, Repr

/-- The escape that shows a half. -/
def halfEscape (unit : Nat) : List Char :=
  '\\' :: 'u' :: hex 4 unit

namespace Point

/-- The character that a code point is, if it is one. -/
def char? : Point → Option Char
  | char c => some c
  | half _ => none

/-- A code point as text, with `write` for halves. -/
def spelled (write : Nat → List Char) : Point → List Char
  | char c => [c]
  | half unit => write unit

end Point

/-- The code points of a text. -/
def points (s : String) : List Point :=
  s.toList.map .char

/-- Code points between quotes, like `quoted`; halves are shown by their escapes. -/
def quotedPoints (points : List Point) : String :=
  let mark := quoteMark (points.filterMap Point.char?)
  let shown : Point → List Char
    | .char c => escaped mark c
    | .half unit => halfEscape unit
  String.ofList (mark :: points.flatMap shown ++ [mark])

/-- The text of code points, with `write` for halves. -/
def spelled (write : Nat → List Char) (points : List Point) : String :=
  String.ofList (points.flatMap (Point.spelled write))

end Text

end Afx
