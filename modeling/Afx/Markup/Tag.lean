import Afx.Markup.Basic
import Afx.Markup.Fault
import Afx.Markup.Lexeme
import Afx.Loop

/-!
# Tags

An opening tag is a name followed by attributes with blanks around them, and
ends as an open tag or as a self-closing one. An attribute is a spread or a
prop; a prop is a name alone, or a name, an equals sign and a value, which is
quoted or an expression. Attributes are read in a loop that ends because every
attribute takes at least one character.

## Main definitions

* `expressionAt`, `spreadAt`, `propAt`: The attribute parts at the front of a
  source.
* `Attributes`: The attributes read so far and what is left.
* `Opening`: A whole opening tag.
* `openingAt`: The opening tag at the front of a source.
* `closingAt`: The closing tag of a given name at the front of a source.

## Theorems

* `length_propAt_lt`, `length_spreadAt_lt`: An attribute takes at least one
  character.
* `length_openingAt_lt`, `length_closingAt_lt`: So does a tag.
-/

namespace Afx

namespace Markup

/-- The code of a braced construct; `s` starts with its opening brace. -/
def codeAt (construct : Construct) (s : List Char) : Except Fault (List Char × List Char) :=
  match braced (s.drop 1) with
  | some found => .ok found
  | none => .error ⟨.unterminated construct, s⟩

/-- The expression at the front of a source that starts with its brace. -/
def expressionAt (s : List Char) : Except Fault (Markup × List Char) :=
  match codeAt .expression s with
  | .ok (code, rest) => .ok (.expression (String.ofList code), rest)
  | .error fault => .error fault

/-- The spread at the front of a source that starts with a brace; three dots
    stand before its code. -/
def spreadAt (s : List Char) : Except Fault (Markup × List Char) :=
  if "\x7b...".toList.isPrefixOf s then
    match codeAt .spread s with
    | .ok (code, rest) => .ok (.spread (.expression (String.ofList (code.drop 3))), rest)
    | .error fault => .error fault
  else .error ⟨.spreadExpected, s⟩

/-- The value after the equals sign of the prop called `owner`. -/
def valueAt (owner : String) (s : List Char) : Except Fault (Markup × List Char) :=
  match s with
  | '\x7b' :: _ => expressionAt s
  | c :: rest =>
    if c == '"' || c == '\'' then
      match quotation c [] rest with
      | some (value, left) => .ok (.literal (String.ofList value), left)
      | none => .error ⟨.unterminated .quotation, s⟩
    else .error ⟨.valueExpected owner (some c), s⟩
  | [] => .error ⟨.valueExpected owner none, s⟩

/-- The prop at the front of a source that starts with its name. Without an
    equals sign its value is a flag. -/
def propAt (s : List Char) : Except Fault (Markup × List Char) :=
  let owner := String.ofList (name s)
  match Text.skipBlank (afterName s) with
  | '=' :: rest =>
    match valueAt owner (Text.skipBlank rest) with
    | .ok (value, left) => .ok (.prop owner value, left)
    | .error fault => .error fault
  | left => .ok (.prop owner (.flag true), left)

/-- The attributes of a tag read so far, last first, and what is left. -/
structure Attributes where
  done : List Markup
  rest : List Char

/-- An opening tag with its attributes, and what follows it. -/
structure Opening where
  name : String
  attributes : List Markup
  selfClosing : Bool
  rest : List Char

namespace Attributes

/-- Adds an attribute that was read to the others. -/
def add (done : List Markup) : Except Fault (Markup × List Char) →
    Except Fault (Turn Attributes Opening)
  | .ok (read, left) => .ok (.next ⟨read :: done, left⟩)
  | .error fault => .error fault

/-- One attribute, or the end of the tag called `tag`, whose opening is `start`. -/
def turn (tag : String) (start : List Char) (a : Attributes) :
    Except Fault (Turn Attributes Opening) :=
  match Text.skipBlank a.rest with
  -- A tag without an end is reported where it starts, all else where it stands.
  | [] => .error ⟨.strayInTag tag none, start⟩
  | '/' :: '>' :: left => .ok (.stop ⟨tag, a.done.reverse, true, left⟩)
  | '>' :: left => .ok (.stop ⟨tag, a.done.reverse, false, left⟩)
  | '\x7b' :: left => add a.done (spreadAt ('\x7b' :: left))
  | c :: left =>
    if isNameChar c then add a.done (propAt (c :: left))
    else .error ⟨.strayInTag tag (some c), c :: left⟩

end Attributes

theorem length_codeAt_lt {construct : Construct} {s : List Char} {found : List Char × List Char}
    (h : codeAt construct s = .ok found) : found.2.length < s.length := by
  simp only [codeAt] at h
  split at h
  · rename_i hb
    simp only [Except.ok.injEq] at h
    subst h
    have := length_braced_lt hb
    simp only [List.length_drop] at this
    omega
  · simp at h

theorem length_expressionAt_lt {s : List Char} {found : Markup × List Char}
    (h : expressionAt s = .ok found) : found.2.length < s.length := by
  simp only [expressionAt] at h
  split at h
  · rename_i hc
    simp only [Except.ok.injEq] at h
    subst h
    exact length_codeAt_lt hc
  · simp at h

theorem length_spreadAt_lt {s : List Char} {found : Markup × List Char}
    (h : spreadAt s = .ok found) : found.2.length < s.length := by
  simp only [spreadAt] at h
  split at h
  · split at h
    · rename_i hc
      simp only [Except.ok.injEq] at h
      subst h
      exact length_codeAt_lt hc
    · simp at h
  · simp at h

theorem length_valueAt_lt {owner : String} {s : List Char} {found : Markup × List Char}
    (h : valueAt owner s = .ok found) : found.2.length < s.length := by
  simp only [valueAt] at h
  split at h
  · exact length_expressionAt_lt h
  · split at h
    · split at h
      · rename_i hq
        simp only [Except.ok.injEq] at h
        subst h
        have := length_quotation_lt hq
        simp only [List.length_cons] at *
        omega
      · simp at h
    · simp at h
  · simp at h

theorem length_propAt_lt {c : Char} {s : List Char} {found : Markup × List Char}
    (hc : isNameChar c = true) (h : propAt (c :: s) = .ok found) :
    found.2.length < (c :: s).length := by
  -- The name takes at least its first character.
  have hname : (afterName (c :: s)).length ≤ s.length := by
    simpa [afterName, hc] using length_afterName_le s
  have hskip := Text.length_skipBlank_le (afterName (c :: s))
  simp only [propAt] at h
  split at h
  · -- After an equals sign, the value takes more.
    rename_i rest hr
    rw [hr] at hskip
    have hrest := Text.length_skipBlank_le rest
    split at h
    · rename_i hv
      simp only [Except.ok.injEq] at h
      subst h
      have := length_valueAt_lt hv
      simp only [List.length_cons] at *
      omega
    · simp at h
  · simp only [Except.ok.injEq] at h
    subst h
    simp only [List.length_cons]
    omega

theorem Attributes.shortens_of_add {done : List Markup}
    {read : Except Fault (Markup × List Char)} {next : Attributes} {n : Nat}
    (h : Attributes.add done read = .ok (.next next))
    (hread : ∀ found, read = .ok found → found.2.length < n) : next.rest.length < n := by
  cases read with
  | error fault => simp [Attributes.add] at h
  | ok found =>
    simp only [Attributes.add, Except.ok.injEq, Turn.next.injEq] at h
    subst h
    exact hread found rfl

theorem Attributes.turn_shortens {tag : String} {start : List Char} {a next : Attributes}
    (h : a.turn tag start = .ok (.next next)) : next.rest.length < a.rest.length := by
  have hskip := Text.length_skipBlank_le a.rest
  refine Nat.lt_of_lt_of_le ?_ hskip
  simp only [Attributes.turn] at h
  split at h
  · simp at h
  · simp at h
  · simp at h
  · rename_i left hl
    rw [hl]
    exact shortens_of_add h fun _ => length_spreadAt_lt
  · -- A prop starts with a character of a name.
    rename_i c left _ _ _ hl
    rw [hl]
    split at h
    · rename_i hc
      exact shortens_of_add h fun _ => length_propAt_lt hc
    · simp at h

/-- The loop that reads the attributes of a tag to the end of the tag. -/
def attributeLoop (tag : String) (start : List Char) : Loop Attributes Fault Opening where
  turn := Attributes.turn tag start
  weight a := a.rest.length
  lowers := Attributes.turn_shortens

/-- The opening tag at the front of a source that starts with its angle bracket. -/
def openingAt (s : List Char) : Except Fault Opening :=
  match name (s.drop 1) with
  | [] => .error ⟨.tagNameExpected (s.drop 1).head?, s.drop 1⟩
  | tag => (attributeLoop (String.ofList tag) s).run ⟨[], afterName (s.drop 1)⟩

/-- What follows the closing tag at the front of a source that starts with `</`;
    the tag has to be called `tag`. -/
def closingAt (tag : String) (s : List Char) : Except Fault (List Char) :=
  match name (s.drop 2) with
  | [] => .error ⟨.closingNameExpected (s.drop 2).head?, s.drop 2⟩
  | closing =>
    if String.ofList closing == tag then
      match Text.skipBlank (afterName (s.drop 2)) with
      | '>' :: left => .ok left
      | left => .error ⟨.textExpected ">" ("closing tag </" ++ tag ++ ">") left.head?, left⟩
    else .error ⟨.mismatchedTag (String.ofList closing) tag, s⟩

theorem Attributes.length_lt_of_stop {tag : String} {start : List Char} {a : Attributes}
    {found : Opening} (h : a.turn tag start = .ok (.stop found)) :
    found.rest.length < a.rest.length := by
  have hskip := Text.length_skipBlank_le a.rest
  refine Nat.lt_of_lt_of_le ?_ hskip
  -- An attribute never ends the tag.
  have hadd : ∀ {done read}, Attributes.add done read ≠ .ok (.stop found) := by
    intro done read
    cases read <;> simp [Attributes.add]
  simp only [Attributes.turn] at h
  split at h
  · simp at h
  · rename_i left hl
    simp only [Except.ok.injEq, Turn.stop.injEq] at h
    subst h
    rw [hl]
    simp only [List.length_cons]
    omega
  · rename_i left hl
    simp only [Except.ok.injEq, Turn.stop.injEq] at h
    subst h
    rw [hl]
    simp
  · exact absurd h hadd
  · split at h
    · exact absurd h hadd
    · simp at h

theorem length_openingAt_lt {s : List Char} {found : Opening} (h : openingAt s = .ok found) :
    found.rest.length < s.length := by
  have hdrop : (s.drop 1).length ≤ s.length := by simp
  have hname := length_afterName_le (s.drop 1)
  simp only [openingAt] at h
  split at h
  · simp at h
  · refine Loop.result_of_run (P := fun a => a.rest.length ≤ s.length)
      (Q := fun o => o.rest.length < s.length) ?_ ?_ (Nat.le_trans hname hdrop) h
    · -- No attribute makes the rest longer than the whole tag.
      intro a next ha ht
      have := Attributes.turn_shortens ht
      omega
    · intro a o ha ht
      have := Attributes.length_lt_of_stop ht
      omega

theorem length_closingAt_lt {tag : String} {s left : List Char} (h : closingAt tag s = .ok left) :
    left.length < s.length := by
  have hdrop : (s.drop 2).length ≤ s.length := by simp
  have hname := length_afterName_le (s.drop 2)
  have hskip := Text.length_skipBlank_le (afterName (s.drop 2))
  simp only [closingAt] at h
  split at h
  · simp at h
  · split at h
    · split at h
      · rename_i hl
        rw [hl] at hskip
        simp only [Except.ok.injEq] at h
        subst h
        simp only [List.length_cons] at hskip
        omega
      · simp at h
    · simp at h

end Markup

end Afx
