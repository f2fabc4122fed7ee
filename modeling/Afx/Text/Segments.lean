/-!
# Segments and Lines

Several formats of this library are lists of pieces with a separator between
them: lines of a document, components of a path, parts of a dotted name. A
text always has at least one segment, so an empty text is one empty segment,
and a separator at an end leaves an empty segment there.

A fault is reported by the line and the column of a position, both counted
from one. Only the line feed ends a line. The position is an integer: a
negative one leaves that many characters off the end of the source when the
lines before it are counted, and one past the end still has a column.

## Main definitions

* `segments`: The pieces between the separators.
* `joined`: Texts put one after another with a separator between them.
* `before`: The part of a source before a position.
* `lineStart`: Where the last line of a text starts.
* `Location.of`: The line and column of a position.
* `annotated`: A message with the location of its position.

## Theorems

* `cut_append`, `segments_append`: A separator ends a segment, whatever stands around it.
* `getLast?_segments`: The last segment is what stands behind the last separator.
* `before_natCast`: Before a position that is not negative.
-/

namespace Afx

namespace Text

/-- The first segment and the others, from the right end. -/
def cut (separator : Char) (s : List Char) : List Char × List (List Char) :=
  s.foldr (fun c (first, others) =>
    if c == separator then ([], first :: others) else (c :: first, others)) ([], [])

/-- The pieces of a text between its separators. -/
def segments (separator : Char) (s : List Char) : List (List Char) :=
  let (first, others) := cut separator s
  first :: others

/-- Texts one after another with a separator between them. -/
def joined (separator : String) : List String → String
  | [] => ""
  | [s] => s
  | s :: rest => s ++ separator ++ joined separator rest

theorem cut_separator (separator : Char) (s : List Char) :
    cut separator (separator :: s) = ([], segments separator s) := by
  simp [cut, segments]

theorem cut_cons {separator c : Char} (hc : c ≠ separator) (s : List Char) :
    cut separator (c :: s) = (c :: (cut separator s).1, (cut separator s).2) := by
  simp [cut, hc]

theorem cut_of_not_mem {separator : Char} {s : List Char} (h : separator ∉ s) :
    cut separator s = (s, []) := by
  induction s with
  | nil => rfl
  | cons c s ih =>
      rw [List.mem_cons, not_or] at h
      rw [cut_cons (fun hc => h.1 hc.symm), ih h.2]

/-- A separator ends a segment, whatever stands around it. -/
theorem cut_append (separator : Char) (first second : List Char) :
    cut separator (first ++ separator :: second) =
      ((cut separator first).1, (cut separator first).2 ++ segments separator second) := by
  induction first with
  | nil => exact cut_separator separator second
  | cons c first ih =>
      rw [List.cons_append]
      by_cases hc : c = separator
      · subst hc
        rw [cut_separator, cut_separator, segments, ih]
        rfl
      · rw [cut_cons hc, cut_cons hc, ih]

theorem segments_of_not_mem {separator : Char} {s : List Char} (h : separator ∉ s) :
    segments separator s = [s] := by
  rw [segments, cut_of_not_mem h]

theorem segments_append (separator : Char) (first second : List Char) :
    segments separator (first ++ separator :: second) =
      segments separator first ++ segments separator second := by
  rw [segments, cut_append]
  rfl

/-- The last segment is what stands behind the last separator. -/
theorem getLast?_segments {separator : Char} {last : List Char} (h : separator ∉ last)
    (front : List Char) :
    (segments separator (front ++ separator :: last)).getLast? = some last := by
  rw [segments_append, segments_of_not_mem h, List.getLast?_append]
  rfl

/-! ## Lines and columns -/

/-- A place in a source, by line and column counted from one. -/
structure Location where
  line : Nat
  column : Int
  deriving DecidableEq, Repr

/-- The part of the source before the position; a negative position counts
    from the end. -/
def before (source : List Char) (position : Int) : List Char :=
  if 0 ≤ position then source.take position.toNat
  else source.take (source.length - (-position).toNat)

theorem before_natCast (source : List Char) (position : Nat) :
    before source position = source.take position := by
  unfold before
  rw [if_pos (Int.natCast_nonneg position), Int.toNat_natCast]

/-- The number of characters up to and including the last line feed. -/
def lineStart (s : List Char) : Nat :=
  s.length - (s.reverse.takeWhile (· != '\n')).length

/-- The line and column of a position. -/
def Location.of (source : List Char) (position : Int) : Location :=
  let consumed := before source position
  { line := consumed.count '\n' + 1
    column := position - lineStart consumed + 1 }

/-- The message followed by the location of its position, if it has one. -/
def annotated (message : String) (source : List Char) : Option Int → String
  | none => message
  | some position =>
    let place := Location.of source position
    message ++ " (line " ++ toString place.line ++ ", column " ++ toString place.column ++ ")"

end Text

end Afx
