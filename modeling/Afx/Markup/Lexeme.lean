import Afx.Text.Blank

/-!
# Lexemes of AFX

The smallest parts of a source: names, comments, quoted values, and the code
between braces. Each reader takes what is left of the source and gives the part
it read and what follows it, which is always shorter.

Code between braces is not understood, only delimited. Braces nest, and those
inside a quotation do not count; a quotation starts at one of three quotes,
ends at the next equal one, and a backslash in it protects the character after
it. One character at a time is enough to follow this, so the delimiter is an
automaton, and the code it accepts is what keeps it in its initial state.

## Main definitions

* `isNameChar`: The characters of tag and attribute names.
* `name`, `afterName`: The name at the front of a source and what follows it.
* `splitAtMark`: A source up to the first occurrence of a mark.
* `quotation`: A quoted value after its opening quote.
* `CodeState`: What is open inside a piece of code.
* `braced`: Code up to its closing brace.

## Theorems

* `length_splitAtMark_le`, `length_quotation_lt`, `length_braced_lt`: What
  follows a part is no longer than the source, and shorter where an end mark
  was passed.
-/

namespace Afx

namespace Markup

/-- The characters of tag and attribute names. -/
def isNameChar (c : Char) : Bool :=
  c.isAlphanum || c == '@' || c == '.' || c == ':' || c == '-' || c == '_'

/-- The name at the front of a source, as long as possible. -/
def name (s : List Char) : List Char :=
  s.takeWhile isNameChar

/-- What follows the name at the front of a source. -/
def afterName (s : List Char) : List Char :=
  s.dropWhile isNameChar

/-- The source before the first occurrence of a mark, and what follows the mark. -/
def splitAtMark (mark : List Char) (done : List Char) :
    List Char → Option (List Char × List Char)
  | [] => if mark.isEmpty then some (done.reverse, []) else none
  | c :: rest =>
    if mark.isPrefixOf (c :: rest) then some (done.reverse, (c :: rest).drop mark.length)
    else splitAtMark mark (c :: done) rest

/-- A quoted value after its opening quote, and what follows its closing quote.
    A backslash is dropped and protects the character after it. -/
def quotation (quote : Char) (done : List Char) : List Char → Option (List Char × List Char)
  | [] => none
  | '\\' :: c :: rest => quotation quote (c :: done) rest
  | c :: rest =>
    if c == quote then some (done.reverse, rest)
    -- A backslash that is the last character protects nothing and closes nothing.
    else if c == '\\' then none
    else quotation quote (c :: done) rest

/-- The quotes inside which braces do not count. -/
def isCodeQuote (c : Char) : Bool :=
  c == '"' || c == '\'' || c == '\x60'

/-- What is open inside a piece of code: braces, and perhaps a quotation, in
    which the next character may be protected. -/
inductive CodeState where
  | code (depth : Nat)
  | quoted (depth : Nat) (quote : Char)
  | escaped (depth : Nat) (quote : Char)
  deriving DecidableEq, Repr

namespace CodeState

/-- The state after one more character, or nothing if the character closes the
    brace that the code stands in. -/
def next : CodeState → Char → Option CodeState
  | code depth, c =>
    -- A backslash outside of a quotation is a character like any other.
    if isCodeQuote c then some (quoted depth c)
    else if c == '\x7b' then some (code (depth + 1))
    else if c == '\x7d' then (if depth = 0 then none else some (code (depth - 1)))
    else some (code depth)
  | quoted depth quote, c =>
    if c == '\\' then some (escaped depth quote)
    else if c == quote then some (code depth)
    else some (quoted depth quote)
  | escaped depth quote, _ => some (quoted depth quote)

end CodeState

/-- Code up to its closing brace, and what follows the brace. -/
def bracedFrom (state : CodeState) (done : List Char) : List Char → Option (List Char × List Char)
  | [] => none
  | c :: rest =>
    match state.next c with
    | none => some (done.reverse, rest)
    | some after => bracedFrom after (c :: done) rest

/-- Code after its opening brace, up to its closing brace, and what follows it. -/
def braced (s : List Char) : Option (List Char × List Char) :=
  bracedFrom (.code 0) [] s

theorem length_afterName_le (s : List Char) : (afterName s).length ≤ s.length :=
  (List.dropWhile_sublist _).length_le

theorem length_splitAtMark_le {mark done s : List Char} {found : List Char × List Char}
    (h : splitAtMark mark done s = some found) : found.2.length ≤ s.length := by
  induction s generalizing done with
  | nil =>
    simp only [splitAtMark] at h
    split at h
    · simp only [Option.some.injEq] at h; subst h; simp
    · simp at h
  | cons c rest ih =>
    simp only [splitAtMark] at h
    split at h
    · simp only [Option.some.injEq] at h
      subst h
      simp only [List.length_drop]
      omega
    · -- The mark stands further on.
      have := ih h
      simp only [List.length_cons]
      omega

theorem length_quotation_lt {quote : Char} {done s : List Char} {found : List Char × List Char}
    (h : quotation quote done s = some found) : found.2.length < s.length := by
  fun_induction quotation quote done s with
  | case1 => simp at h
  | case2 _ _ _ ih => have := ih h; simp only [List.length_cons]; omega
  | case3 => simp only [Option.some.injEq] at h; subst h; simp
  | case4 => simp at h
  | case5 _ _ _ _ _ _ ih => have := ih h; simp only [List.length_cons]; omega

theorem length_bracedFrom_lt {state : CodeState} {done s : List Char}
    {found : List Char × List Char} (h : bracedFrom state done s = some found) :
    found.2.length < s.length := by
  induction s generalizing state done with
  | nil => simp [bracedFrom] at h
  | cons c rest ih =>
    simp only [bracedFrom] at h
    split at h
    · simp only [Option.some.injEq] at h; subst h; simp
    · have := ih h
      simp only [List.length_cons]
      omega

theorem length_braced_lt {s : List Char} {found : List Char × List Char}
    (h : braced s = some found) : found.2.length < s.length :=
  length_bracedFrom_lt h

end Markup

end Afx
