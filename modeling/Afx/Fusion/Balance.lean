import Afx.Text.Blank
import Afx.Text.Segments

/-!
# Balanced Braces

Before a document is written, its braces are checked. Braces count unless they
stand in a quotation or in a comment line. A quotation opens at a single or
double quote and closes at the next equal one that no backslash protects,
perhaps on a later line; what is protected is the next character that is no
line feed. A comment line starts, after blanks, with two slashes or a hash, and
does not start inside a quotation.

## Main definitions

* `Imbalance`: What is wrong with the braces of a document.
* `Scan`: The braces that are open and the quotation that is.
* `checkBraces`: Refuses a document whose braces do not balance.
-/

namespace Afx

namespace Fusion

/-- What is wrong with the braces of a document. -/
inductive Imbalance where
  /-- A closing brace without an opening one, on a line counted from one. -/
  | unmatched (line : Nat)
  /-- So many opening braces without a closing one. -/
  | leftOpen (count : Nat)
  deriving DecidableEq, Repr

/-- The wording of an imbalance. -/
def Imbalance.message : Imbalance → String
  | unmatched line => "Generated Fusion has an unmatched closing brace on line " ++ toString line
  | leftOpen count =>
    "Generated Fusion has unbalanced braces: " ++ toString count ++ " left open"

/-- How many braces are open, the quotation that is open, and whether the next
    character in it is protected. -/
structure Scan where
  depth : Nat := 0
  quote : Option Char := none
  protect : Bool := false
  deriving DecidableEq, Repr

namespace Scan

/-- The state after one more character, which stands on the given line. -/
def next (line : Nat) (s : Scan) (c : Char) : Except Imbalance Scan :=
  match s.quote with
  | some quote =>
    if s.protect then .ok { s with protect := false }
    else if c == '\\' then .ok { s with protect := true }
    else if c == quote then .ok { s with quote := none }
    else .ok s
  | none =>
    if c == '\'' || c == '"' then .ok { s with quote := some c }
    else if c == '\x7b' then .ok { s with depth := s.depth + 1 }
    else if c == '\x7d' then
      if s.depth = 0 then .error (.unmatched line) else .ok { s with depth := s.depth - 1 }
    else .ok s

/-- A line that is a comment if it starts outside of a quotation. -/
def isComment (line : List Char) : Bool :=
  "//".toList.isPrefixOf (Text.skipBlank line) || "#".toList.isPrefixOf (Text.skipBlank line)

/-- The state after a line. -/
def line (number : Nat) (s : Scan) (content : List Char) : Except Imbalance Scan :=
  -- A quotation that is open on an earlier line runs on through this one.
  if s.quote.isNone && isComment content then .ok s
  else content.foldlM (next number) s

/-- The state after lines, the first of which has the given number. -/
def lines (number : Nat) (s : Scan) : List (List Char) → Except Imbalance Scan
  | [] => .ok s
  | content :: rest =>
    match s.line number content with
    | .ok after => lines (number + 1) after rest
    | .error imbalance => .error imbalance

end Scan

/-- Refuses a document whose braces do not balance. -/
def checkBraces (document : String) : Except Imbalance Unit :=
  match Scan.lines 1 {} (Text.segments '\n' document.toList) with
  | .ok s => if s.depth = 0 then .ok () else .error (.leftOpen s.depth)
  | .error imbalance => .error imbalance

end Fusion

end Afx
