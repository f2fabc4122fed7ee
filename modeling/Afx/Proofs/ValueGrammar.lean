import Afx.Fusion.Value
import Afx.Proofs.Lexemes

/-!
# A Grammar of Fusion Values

What a text of Fusion says is fixed here by a grammar, without looking at how
texts are written. A literal stands between single quotes and a backslash in it
protects the next character, except that an escaped zero is the null character.
An expression stands between its marks and is delimited in the way markup
delimits code. An object is its name and a block of lines, each of which
assigns a value to a path behind a margin of any width.

Nothing in the grammar says where a value ends, and there is no need to. If two
values start one text and a line ends behind both, they are the same value. The
layout of a value is then a text that denotes the value and no other, provided
that its names can be read as names and its code as code.

## Main definitions

* `Literal`: The inside of a literal and the text that it stands for.
* `Margin`: The blanks in front of a line.
* `Denotes`, `DenotesLines`: The texts of values and of the lines of objects.
* `EndsLine`: What may follow a value.
* `Readable`: Values whose names and code can be read.

## Theorems

* `literal_unique`: A literal ends at one place and stands for one text.
* `Denotes.unique`: A text starts with at most one value.
* `denotes_layout`: The layout of a readable value denotes it.
* `denotes_layout_iff`: It denotes nothing else.
-/

namespace Afx

namespace Fusion

open Markup

/-! ## The grammar -/

/-- The inside of a literal, and the text that it stands for. -/
inductive Literal : List Char → List Char → Prop where
  | nil : Literal [] []
  | plain {c : Char} {raw content : List Char} (hquote : c ≠ '\'') (hslash : c ≠ '\\')
      (h : Literal raw content) : Literal (c :: raw) (c :: content)
  | null {raw content : List Char} (h : Literal raw content) :
      Literal ('\\' :: '0' :: raw) ('\x00' :: content)
  | escaped {c : Char} {raw content : List Char} (hc : c ≠ '0') (h : Literal raw content) :
      Literal ('\\' :: c :: raw) (c :: content)

/-- The characters of margins. -/
def isMarginChar (c : Char) : Bool :=
  c == ' ' || c == '\t'

/-- The blanks in front of a line. -/
def Margin (w : List Char) : Prop :=
  ∀ c ∈ w, isMarginChar c = true

instance (w : List Char) : Decidable (Margin w) :=
  decidable_of_iff (w.all isMarginChar = true) (by simp [Margin])

mutual

/-- The texts of a value. -/
inductive Denotes : List Char → Value → Prop where
  | text {raw content : List Char} (h : Literal raw content) :
      Denotes ('\'' :: raw ++ ['\'']) (.text (String.ofList content))
  | expression {code : List Char} (h : IsCode code) :
      Denotes ('$' :: '\x7b' :: code ++ ['\x7d']) (.expression (String.ofList code))
  | boolean (value : Bool) :
      Denotes (if value then "true".toList else "false".toList) (.boolean value)
  | object {name lines w : List Char} {entries : List (String × Value)} (hname : IsName name)
      (hlines : DenotesLines lines entries) (hw : Margin w) :
      Denotes (name ++ ' ' :: '\x7b' :: '\n' :: lines ++ w ++ ['\x7d'])
        (.object (String.ofList name) entries)

/-- The lines that assign values to paths. -/
inductive DenotesLines : List Char → List (String × Value) → Prop where
  | nil : DenotesLines [] []
  | cons {w path text rest : List Char} {value : Value} {entries : List (String × Value)}
      (hw : Margin w) (hpath : IsName path) (h : Denotes text value)
      (hrest : DenotesLines rest entries) :
      DenotesLines (w ++ path ++ ' ' :: '=' :: ' ' :: text ++ '\n' :: rest)
        ((String.ofList path, value) :: entries)

end

/-- What may follow a value: the end of its line, or of the whole text. -/
def EndsLine (s : List Char) : Prop :=
  ∀ c ∈ s.head?, c = '\n'

/-! ## Every part ends at one place -/

theorem literal_unique {raw raw' content content' s s' : List Char} (h : Literal raw content)
    (h' : Literal raw' content') (hsame : raw ++ '\'' :: s = raw' ++ '\'' :: s') :
    raw = raw' ∧ content = content' := by
  induction h generalizing raw' content' with
  | nil =>
      cases h' with
      | nil => exact ⟨rfl, rfl⟩
      | plain hquote => exact absurd (List.cons.inj hsame).1.symm hquote
      | null => simp at hsame
      | escaped => simp at hsame
  | plain hquote hslash _ ih =>
      cases h' with
      | nil => exact absurd (List.cons.inj hsame).1 hquote
      | plain _ _ h' =>
          rcases List.cons.inj hsame with ⟨rfl, hrest⟩
          rcases ih h' hrest with ⟨rfl, rfl⟩
          exact ⟨rfl, rfl⟩
      | null => exact absurd (List.cons.inj hsame).1 hslash
      | escaped => exact absurd (List.cons.inj hsame).1 hslash
  | null _ ih =>
      cases h' with
      | nil => simp at hsame
      | plain _ hslash => exact absurd (List.cons.inj hsame).1.symm hslash
      | null h' =>
          rcases ih h' (List.cons.inj (List.cons.inj hsame).2).2 with ⟨rfl, rfl⟩
          exact ⟨rfl, rfl⟩
      | escaped hc => exact absurd (List.cons.inj (List.cons.inj hsame).2).1.symm hc
  | escaped hc _ ih =>
      cases h' with
      | nil => simp at hsame
      | plain _ hslash => exact absurd (List.cons.inj hsame).1.symm hslash
      | null => exact absurd (List.cons.inj (List.cons.inj hsame).2).1 hc
      | escaped _ h' =>
          rcases List.cons.inj (List.cons.inj hsame).2 with ⟨rfl, hrest⟩
          rcases ih h' hrest with ⟨rfl, rfl⟩
          exact ⟨rfl, rfl⟩

theorem code_unique {code code' s s' : List Char} (h : IsCode code) (h' : IsCode code')
    (hsame : code ++ '\x7d' :: s = code' ++ '\x7d' :: s') : code = code' := by
  have hbraced := braced_append h s
  rw [hsame, braced_append h' s', Option.some.injEq, Prod.mk.injEq] at hbraced
  exact hbraced.1.symm

/-- A text starts with one longest run of characters of a class. -/
theorem run_unique {p : Char → Bool} {u u' s s' : List Char} (hu : ∀ c ∈ u, p c = true)
    (hu' : ∀ c ∈ u', p c = true) (hs : ∀ c ∈ s.head?, p c = false)
    (hs' : ∀ c ∈ s'.head?, p c = false) (hsame : u ++ s = u' ++ s') : u = u' ∧ s = s' := by
  have hrun : u = u' := by
    rw [← takeWhile_run hu hs, hsame, takeWhile_run hu' hs']
  subst hrun
  exact ⟨rfl, List.append_cancel_left hsame⟩

theorem name_unique {n n' s s' : List Char} (h : IsName n) (h' : IsName n') (hs : EndsName s)
    (hs' : EndsName s') (hsame : n ++ s = n' ++ s') : n = n' ∧ s = s' :=
  run_unique h.2 h'.2 hs hs' hsame

/-- What is behind a margin starts with another character. -/
theorem margin_unique {w w' s s' : List Char} {c c' : Char} (h : Margin w) (h' : Margin w')
    (hc : isMarginChar c = false) (hc' : isMarginChar c' = false)
    (hsame : w ++ c :: s = w' ++ c' :: s') : w = w' ∧ c :: s = c' :: s' :=
  run_unique h h' (by simpa using hc) (by simpa using hc') hsame

theorem isMarginChar_of_isNameChar {c : Char} (h : isNameChar c = true) :
    isMarginChar c = false := by
  by_contra hc
  simp only [isMarginChar, Bool.not_eq_false, Bool.or_eq_true, beq_iff_eq] at hc
  rcases hc with rfl | rfl <;> exact absurd h (by decide)

/-- A truth value is written as a name. -/
theorem isName_boolean (value : Bool) :
    IsName (if value then "true".toList else "false".toList) := by
  cases value <;> decide

theorem EndsLine.endsName {s : List Char} (h : EndsLine s) : EndsName s := by
  intro c hc
  rw [h c hc]
  decide

/-- A space ends a name. -/
theorem endsName_space (s : List Char) : EndsName (' ' :: s) := by
  intro c hc
  rw [← Option.mem_some_iff.mp hc]
  decide

/-- The name of an object is followed by a space, and a truth value is not. -/
theorem boolean_append_ne {name s rest : List Char} (value : Bool) (hname : IsName name)
    (hs : EndsLine s) :
    (if value then "true".toList else "false".toList) ++ s ≠ name ++ ' ' :: rest := by
  intro hsame
  have hrest : s = ' ' :: rest :=
    (name_unique (isName_boolean value) hname hs.endsName (endsName_space rest) hsame).2
  have hspace : ' ' = '\n' := hs ' ' (by rw [hrest]; rfl)
  exact absurd hspace (by decide)

/-- A line is not the end of a block. -/
theorem line_append_ne {w w' path s rest : List Char} (hw : Margin w) (hw' : Margin w')
    (hpath : IsName path) : w ++ '\x7d' :: s ≠ w' ++ path ++ rest := by
  intro hsame
  rcases hpath.cons with ⟨c, left, hcons, hc⟩
  rw [hcons, List.append_assoc, List.cons_append] at hsame
  have hbrace := (margin_unique hw hw' (by decide) (isMarginChar_of_isNameChar hc) hsame).2
  rw [← List.cons_append, ← hcons] at hbrace
  exact hpath.append_ne rfl rest s hbrace.symm

theorem line_unique {w w' path path' s s' : List Char} (hw : Margin w) (hw' : Margin w')
    (hpath : IsName path) (hpath' : IsName path')
    (hsame : w ++ path ++ ' ' :: s = w' ++ path' ++ ' ' :: s') :
    w = w' ∧ path = path' ∧ s = s' := by
  rcases hpath.cons with ⟨c, rest, hcons, hc⟩
  rcases hpath'.cons with ⟨c', rest', hcons', hc'⟩
  -- The margins end where the paths start, and the paths end at the space.
  have hmargin := hsame
  rw [hcons, hcons', List.append_assoc, List.append_assoc, List.cons_append,
    List.cons_append] at hmargin
  rcases margin_unique hw hw' (isMarginChar_of_isNameChar hc) (isMarginChar_of_isNameChar hc')
    hmargin with ⟨rfl, -⟩
  rw [List.append_assoc, List.append_assoc] at hsame
  rcases name_unique hpath hpath' (endsName_space s) (endsName_space s')
    (List.append_cancel_left hsame) with ⟨rfl, hrest⟩
  exact ⟨rfl, rfl, (List.cons.inj hrest).2⟩

theorem endsLine_lineFeed (s : List Char) : EndsLine ('\n' :: s) := by
  intro c hc
  exact (Option.mem_some_iff.mp hc).symm

/-! ## A text starts with at most one value -/

mutual

theorem Denotes.unique {text text' s s' : List Char} {value value' : Value}
    (h : Denotes text value) (h' : Denotes text' value') (hs : EndsLine s) (hs' : EndsLine s')
    (hsame : text ++ s = text' ++ s') : text = text' ∧ value = value' := by
  cases h with
  | text hraw =>
      cases h' with
      | text hraw' =>
          simp only [List.cons_append, List.append_assoc, List.cons.injEq, true_and,
            List.nil_append] at hsame
          rcases literal_unique hraw hraw' hsame with ⟨rfl, rfl⟩
          exact ⟨rfl, rfl⟩
      | expression => simp at hsame
      | boolean value' => cases value' <;> simp at hsame
      | object hname =>
          simp only [List.append_assoc] at hsame
          exact absurd hsame.symm (hname.append_ne rfl _ _)
  | expression hcode =>
      cases h' with
      | text => simp at hsame
      | expression hcode' =>
          simp only [List.cons_append, List.append_assoc, List.cons.injEq, true_and,
            List.nil_append] at hsame
          rw [code_unique hcode hcode' hsame]
          exact ⟨rfl, rfl⟩
      | boolean value' => cases value' <;> simp at hsame
      | object hname =>
          simp only [List.append_assoc] at hsame
          exact absurd hsame.symm (hname.append_ne rfl _ _)
  | boolean value =>
      cases h' with
      | text => cases value <;> simp at hsame
      | expression => cases value <;> simp at hsame
      | boolean value' =>
          have hword := (name_unique (isName_boolean value) (isName_boolean value') hs.endsName
            hs'.endsName hsame).1
          cases value <;> cases value' <;> simp at hword ⊢
      | object hname =>
          simp only [List.append_assoc, List.cons_append] at hsame
          exact absurd hsame (boolean_append_ne value hname hs)
  | object hname hlines hw =>
      cases h' with
      | text =>
          simp only [List.append_assoc] at hsame
          exact absurd hsame (hname.append_ne rfl _ _)
      | expression =>
          simp only [List.append_assoc] at hsame
          exact absurd hsame (hname.append_ne rfl _ _)
      | boolean value' =>
          simp only [List.append_assoc, List.cons_append] at hsame
          exact absurd hsame.symm (boolean_append_ne value' hname hs')
      | object hname' hlines' hw' =>
          simp only [List.append_assoc, List.cons_append] at hsame
          rcases name_unique hname hname' (endsName_space _) (endsName_space _) hsame with
            ⟨rfl, hblock⟩
          simp only [List.cons.injEq, true_and] at hblock
          -- The blocks agree first, and then the margins before their ends.
          rcases hlines.unique hlines' hw hw' (by simpa using hblock) with ⟨rfl, rfl⟩
          rcases margin_unique hw hw' (by decide) (by decide) (List.append_cancel_left hblock) with
            ⟨rfl, -⟩
          exact ⟨rfl, rfl⟩

theorem DenotesLines.unique {lines lines' w w' s s' : List Char}
    {entries entries' : List (String × Value)} (h : DenotesLines lines entries)
    (h' : DenotesLines lines' entries') (hw : Margin w) (hw' : Margin w')
    (hsame : lines ++ w ++ '\x7d' :: s = lines' ++ w' ++ '\x7d' :: s') :
    lines = lines' ∧ entries = entries' := by
  cases h with
  | nil =>
      cases h' with
      | nil => exact ⟨rfl, rfl⟩
      | @cons w'' path' text' rest' _ _ hmargin' hpath' =>
          have hline : w ++ '\x7d' :: s = w'' ++ path' ++
              (' ' :: '=' :: ' ' :: text' ++ '\n' :: rest' ++ w' ++ '\x7d' :: s') := by
            simpa using hsame
          exact absurd hline (line_append_ne hw hmargin' hpath')
  | @cons w'' path text rest _ _ hmargin hpath h hrest =>
      cases h' with
      | nil =>
          have hline : w' ++ '\x7d' :: s' =
              w'' ++ path ++ (' ' :: '=' :: ' ' :: text ++ '\n' :: rest ++ w ++ '\x7d' :: s) := by
            simpa using hsame.symm
          exact absurd hline (line_append_ne hw' hmargin hpath)
      | @cons _ path' text' rest' _ _ hmargin' hpath' h' hrest' =>
          rcases line_unique hmargin hmargin' hpath hpath' (by simpa using hsame) with
            ⟨rfl, rfl, hvalue⟩
          have hvalue' : text ++ '\n' :: (rest ++ w ++ '\x7d' :: s) =
              text' ++ '\n' :: (rest' ++ w' ++ '\x7d' :: s') := by
            simpa using hvalue
          -- A value is followed by its line feed, which is what makes it unique.
          rcases h.unique h' (endsLine_lineFeed _) (endsLine_lineFeed _) hvalue' with ⟨rfl, rfl⟩
          have hlines : rest ++ w ++ '\x7d' :: s = rest' ++ w' ++ '\x7d' :: s' :=
            (List.cons.inj (List.append_cancel_left hvalue')).2
          rcases hrest.unique hrest' hw hw' hlines with ⟨rfl, rfl⟩
          exact ⟨rfl, rfl⟩

end

/-! ## The layout of a value -/

mutual

/-- Names and paths of the value are names, and its code is code. -/
def Readable : Value → Prop
  | .text _ => True
  | .expression code => IsCode code.toList
  | .boolean _ => True
  | .object name entries => IsName name.toList ∧ ReadableEntries entries

/-- The same for each entry of an object. -/
def ReadableEntries : List (String × Value) → Prop
  | [] => True
  | (path, value) :: rest => IsName path.toList ∧ Readable value ∧ ReadableEntries rest

end

theorem literal_escaped (content : List Char) : Literal (content.flatMap escaped) content := by
  induction content with
  | nil => exact .nil
  | cons c content ih =>
      rw [List.flatMap_cons, escaped]
      by_cases hc : c == '\\' || c == '\'' || c == '"'
      · -- No character that is protected is a zero, which would be read as null.
        rw [if_pos hc]
        refine .escaped ?_ ih
        rintro rfl
        exact absurd hc (by decide)
      · rw [if_neg hc]
        by_cases hnull : c == '\x00'
        · rw [if_pos hnull, beq_iff_eq.mp hnull]
          exact .null ih
        · rw [if_neg hnull]
          simp only [Bool.or_eq_true, beq_iff_eq, not_or] at hc
          exact .plain hc.1.2 hc.1.1 ih

mutual

theorem denotes_layout {margin : Nat → String} (hmargin : ∀ n, Margin (margin n).toList) :
    (value : Value) → Readable value → (level : Nat) →
      Denotes (value.layout margin level).toList value
  | .text content, _, level => by
      have h := Denotes.text (literal_escaped content.toList)
      simpa [Value.layout, quotedText] using h
  | .expression code, hcode, level => by
      have h := Denotes.expression hcode
      simpa [Value.layout, quotedCode] using h
  | .boolean value, _, level => by
      have h := Denotes.boolean value
      cases value <;> exact h
  | .object name entries, hobject, level => by
      have hlines := denotesLines_layout hmargin entries hobject.2 (level + 1)
      have h := Denotes.object hobject.1 hlines (hmargin level)
      simpa [Value.layout] using h

theorem denotesLines_layout {margin : Nat → String} (hmargin : ∀ n, Margin (margin n).toList) :
    (entries : List (String × Value)) → ReadableEntries entries → (level : Nat) →
      DenotesLines (Value.layoutEntries margin level entries).toList entries
  | [], _, level => .nil
  | (path, value) :: rest, hentries, level => by
      have hvalue := denotes_layout hmargin value hentries.2.1 level
      have hrest := denotesLines_layout hmargin rest hentries.2.2 level
      have h := DenotesLines.cons (hmargin level) hentries.1 hvalue hrest
      simpa [Value.layoutEntries] using h

end

/-- The layout of a readable value denotes the value and no other. -/
theorem denotes_layout_iff {margin : Nat → String} (hmargin : ∀ n, Margin (margin n).toList)
    {value : Value} (h : Readable value) (level : Nat) (found : Value) :
    Denotes (value.layout margin level).toList found ↔ found = value := by
  have hvalue := denotes_layout hmargin value h level
  constructor
  · intro hfound
    have hend : EndsLine [] := by simp [EndsLine]
    exact (hfound.unique hvalue hend hend rfl).2
  · rintro rfl
    exact hvalue

end Fusion

end Afx
