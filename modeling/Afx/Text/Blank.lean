/-!
# Blanks and Line Ends

Markup separates its parts by blanks, and the text between tags is
normalised by the runs of blanks in it. Both use one class of characters: the
ASCII blanks, the four information separators, and the spaces and line
separators beyond ASCII. Zero-width characters are not blank.

Files are written on different systems with different line ends. A text that
was read has line feeds only: a carriage return with a line feed behind it, or
alone, is one line feed.

Authors break lines and indent text between tags, and that layout is not part
of the text. A run of blanks that contains a line feed is layout: at either
end of the text it vanishes, and inside it stands for one space. A run without
a line feed is part of the text and stays as it is. The text is read from left
to right, holding back the run of blanks that was read last until it is known
what follows it. Nothing is kept yet exactly as long as the text has only had
blanks.

## Main definitions

* `isBlank`: The class of blank characters.
* `skipBlank`: What is left of a text after its leading blanks.
* `trim`: A text without its leading and trailing blanks.
* `unifyLineEnds`: A text with line feeds only.
* `settle`: What a run of blanks becomes.
* `normalise`: A text without the layout of its source.

## Theorems

* `length_skipBlank_le`: Skipping blanks never lengthens a text.
-/

namespace Afx

namespace Text

/-- The blank characters: tab to carriage return, the information separators
    and the space, next line, and the wider spaces and separators. -/
def isBlank (c : Char) : Bool :=
  let n := c.toNat
  (0x09 ≤ n && n ≤ 0x0d) || (0x1c ≤ n && n ≤ 0x20) || n == 0x85 || n == 0xa0 || n == 0x1680 ||
    (0x2000 ≤ n && n ≤ 0x200a) || n == 0x2028 || n == 0x2029 || n == 0x202f || n == 0x205f ||
    n == 0x3000

/-- What is left after the leading blanks. -/
def skipBlank (s : List Char) : List Char :=
  s.dropWhile isBlank

/-- The text without its leading and trailing blanks. -/
def trim (s : List Char) : List Char :=
  (skipBlank (skipBlank s).reverse).reverse

theorem length_skipBlank_le (s : List Char) : (skipBlank s).length ≤ s.length :=
  (List.dropWhile_sublist _).length_le

/-! ## Line ends -/

/-- The text with line feeds only, after characters that are done, last first. -/
def unifyFrom (done : List Char) : List Char → List Char
  | [] => done.reverse
  | '\r' :: '\n' :: rest => unifyFrom ('\n' :: done) rest
  | '\r' :: rest => unifyFrom ('\n' :: done) rest
  | c :: rest => unifyFrom (c :: done) rest

/-- The text with line feeds only. -/
def unifyLineEnds (text : String) : String :=
  String.ofList (unifyFrom [] text.toList)

end Text

namespace Markup

/-! ## Layout -/

/-- What a run of blanks becomes: layout vanishes at an edge of the text and
    stands for one space inside it; any other run stays. -/
def settle (atEdge : Bool) (run : List Char) : List Char :=
  if run.contains '\n' then (if atEdge then [] else [' ']) else run

/-- Takes one character: a blank is held back, any other character settles the
    blanks before it. Both lists hold the last character first. -/
def settleNext : List Char × List Char → Char → List Char × List Char
  | (kept, run), c =>
    if Text.isBlank c then (kept, c :: run) else (c :: settle kept.isEmpty run ++ kept, [])

/-- The characters of a text without the layout of its source. -/
def normaliseChars (raw : List Char) : List Char :=
  -- The blanks held back at the end stand at an edge.
  let (kept, run) := raw.foldl settleNext ([], [])
  (settle true run ++ kept).reverse

/-- A text without the layout of its source. -/
def normalise (raw : String) : String :=
  String.ofList (normaliseChars raw.toList)

end Markup

end Afx
