import Afx.Markup.Document
import Afx.Proofs.Lexemes

/-!
# The Grammar of AFX

What a source has to look like to be read, said without a reader. `Derives`
relates a text to the values it stands for, one rule for each kind of value; a
tag contains its children, so one rule uses the relation twice. Attributes hold
no tags, and their rules stand apart.

Three places need more than concatenation. A run of text and a name are as long
as possible, and a name that is followed by an equals sign is never a flag. All
three are conditions on what comes next, and `EndsText`, `EndsName` and
`Unassigned` state them. They are closed under prefixes, which is what allows a
part to be described without the rest of the source.

The second half of the module takes the reader of tags apart by this grammar.
Every reader has two lemmas: a text of the right form is read, whatever follows
it, and whatever is read has the right form. The loop over attributes is
followed backwards from its end, because the attributes that are still to come
decide what may stand in front of them.

## Main definitions

* `DerivesValue`, `DerivesAttribute`, `DerivesAttributes`: The forms of
  attributes.
* `Derives`: The forms of a document's content.
* `nesting`, `nestingOf`: How deeply tags nest.
* `tagEnd`: How an opening tag ends.

## Theorems

* `Loop.of_run`: A relation that is kept backwards relates start and result.
* `valueAt_append`, `valueAt_eq_ok`: Values after an equals sign.
* `propAt_bare`, `propAt_assigned`, `propAt_eq_ok`: Props.
* `spreadAt_append`, `spreadAt_eq_ok`: Spreads.
* `attributeLoop_append`, `attributeLoop_eq_ok`: Attributes up to the tag's end.
* `openingAt_append`, `openingAt_eq_ok`: Opening tags.
* `closingAt_append`, `closingAt_eq_ok`: Closing tags.
-/

namespace Afx

namespace Loop

variable {σ ε α : Type}

/-- A relation between a state and a result that holds where the loop stops, and
    that a turn carries back from the next state, relates every state with the
    result of its run. -/
theorem of_run {loop : Loop σ ε α} {R : σ → α → Prop}
    (hstop : ∀ s a, loop.turn s = .ok (.stop a) → R s a)
    (hnext : ∀ s t a, loop.turn s = .ok (.next t) → R t a → R s a)
    {s : σ} {a : α} (h : loop.run s = .ok a) : R s a := by
  induction hw : loop.weight s using Nat.strongRecOn generalizing s with
  | ind n ih =>
      cases ht : loop.turn s with
      | error e => rw [run_of_error ht] at h; simp at h
      | ok turned =>
          cases turned with
          | stop b =>
              rw [run_of_stop ht, Except.ok.injEq] at h
              exact h ▸ hstop s b ht
          | next t =>
              rw [run_of_next ht] at h
              exact hnext s t a ht (ih _ (hw ▸ loop.lowers ht) h rfl)

/-- A run depends on a state only through its first turn. -/
theorem run_congr {loop : Loop σ ε α} {s t : σ} (h : loop.turn s = loop.turn t) :
    loop.run s = loop.run t := by
  cases ht : loop.turn t with
  | error e => rw [run_of_error (h.trans ht), run_of_error ht]
  | ok turned =>
      cases turned with
      | stop a => rw [run_of_stop (h.trans ht), run_of_stop ht]
      | next u => rw [run_of_next (h.trans ht), run_of_next ht]

end Loop

namespace Markup

/-! ## Forms -/

/-- No text between tags goes on here: a tag or a brace comes next, or nothing. -/
def EndsText (s : List Char) : Prop :=
  ∀ c ∈ s.head?, c = '<' ∨ c = '\x7b'

/-- No equals sign comes next, even behind blanks. -/
def Unassigned (s : List Char) : Prop :=
  ∀ w rest, Blanks w → s ≠ w ++ '=' :: rest

/-- A value after an equals sign. -/
inductive DerivesValue : List Char → Markup → Prop where
  | quoted {quote : Char} {raw value : List Char} (hquote : quote = '"' ∨ quote = '\'')
      (hraw : Quoted quote raw value) :
      DerivesValue (quote :: raw ++ [quote]) (.literal (String.ofList value))
  | expression {code : List Char} (hcode : Code code) :
      DerivesValue ('\x7b' :: code ++ ['\x7d']) (.expression (String.ofList code))

/-- An attribute with the text `after` behind it. -/
inductive DerivesAttribute (after : List Char) : List Char → Markup → Prop where
  | spread {code : List Char} (hcode : Code code) :
      DerivesAttribute after ("\x7b...".toList ++ code ++ ['\x7d'])
        (.spread (.expression (String.ofList code)))
  | bare {n : List Char} (hname : IsName n) (hends : EndsName after) (hbare : Unassigned after) :
      DerivesAttribute after n (.prop (String.ofList n) (.flag true))
  | assigned {n v w t : List Char} {value : Markup} (hname : IsName n) (hv : Blanks v)
      (hw : Blanks w) (hvalue : DerivesValue t value) :
      DerivesAttribute after (n ++ v ++ '=' :: w ++ t) (.prop (String.ofList n) value)

/-- The attributes of a tag, each with blanks behind it. -/
inductive DerivesAttributes : List Char → List Markup → Prop where
  | nil : DerivesAttributes [] []
  | cons {a w rest : List Char} {first : Markup} {others : List Markup}
      (hfirst : DerivesAttribute (w ++ rest) a first) (hw : Blanks w)
      (h : DerivesAttributes rest others) : DerivesAttributes (a ++ w ++ rest) (first :: others)

/-- The content of a document or of a tag, and the values it stands for. -/
inductive Derives : List Char → List Markup → Prop where
  | nil : Derives [] []
  | comment {t rest : List Char} {values : List Markup} (hfirst : ¬ "-->".toList <:+: t)
      (h : Derives rest values) :
      Derives ("<!--".toList ++ t ++ "-->".toList ++ rest)
        (.comment (String.ofList t) :: values)
  | text {t rest : List Char} {values : List Markup} (hne : t ≠ [])
      (ht : ∀ c ∈ t, c ≠ '<' ∧ c ≠ '\x7b') (hends : EndsText rest) (h : Derives rest values) :
      Derives (t ++ rest) (.text (String.ofList t) :: values)
  | expression {code rest : List Char} {values : List Markup} (hcode : Code code)
      (h : Derives rest values) :
      Derives ('\x7b' :: code ++ '\x7d' :: rest) (.expression (String.ofList code) :: values)
  | selfClosing {n w a rest : List Char} {attributes values : List Markup} (hname : IsName n)
      (hends : EndsName (w ++ a)) (hw : Blanks w) (hattributes : DerivesAttributes a attributes)
      (h : Derives rest values) :
      Derives ('<' :: n ++ w ++ a ++ "/>".toList ++ rest)
        (.element (String.ofList n) true attributes [] :: values)
  | element {n w a inner v rest : List Char} {attributes children values : List Markup}
      (hname : IsName n) (hends : EndsName (w ++ a)) (hw : Blanks w)
      (hattributes : DerivesAttributes a attributes) (hinner : Derives inner children)
      (hv : Blanks v) (h : Derives rest values) :
      Derives ('<' :: n ++ w ++ a ++ ">".toList ++ inner ++ "</".toList ++ n ++ v ++ ">".toList ++
          rest)
        (.element (String.ofList n) false attributes children :: values)

mutual

/-- How many tags nest in a value, itself included. -/
def nesting : Markup → Nat
  | .element _ _ _ children => 1 + nestingOf children
  | _ => 0

/-- How many tags nest in a list of values. -/
def nestingOf : List Markup → Nat
  | [] => 0
  | value :: rest => max (nesting value) (nestingOf rest)

end

/-- How an opening tag ends. -/
def tagEnd (selfClosing : Bool) : List Char :=
  if selfClosing then "/>".toList else ">".toList

/-! ## What comes next -/

theorem endsName_of_append {s t : List Char} (h : EndsName (s ++ t)) : EndsName s := by
  intro c hc
  cases s with
  | nil => simp at hc
  | cons d s => exact h c (by simpa using hc)

theorem unassigned_of_append {s t : List Char} (h : Unassigned (s ++ t)) : Unassigned s := by
  intro w rest hw hs
  exact h w (rest ++ t) hw (by simp [hs])

/-- Blanks end a name, and so does what ends a name behind them. -/
theorem endsName_blanks {w s : List Char} (hw : Blanks w) (h : w = [] → EndsName s) :
    EndsName (w ++ s) := by
  intro c hc
  cases w with
  | nil => exact h rfl c (by simpa using hc)
  | cons d w =>
      have hcd : d = c := by simpa using hc
      rw [← hcd]
      exact isNameChar_of_isBlank d (hw d (by simp))

/-- The end of a tag is part of no name. -/
theorem endsName_tagEnd {s : List Char} (h : EndsName s) (selfClosing : Bool) (rest : List Char) :
    EndsName (s ++ tagEnd selfClosing ++ rest) := by
  intro c hc
  cases s with
  | nil => cases selfClosing <;> simp [tagEnd] at hc <;> subst hc <;> rfl
  | cons d s => exact h c (by simpa using hc)

/-- Blanks in front do not matter to whether an equals sign comes next. -/
theorem unassigned_iff (s : List Char) :
    Unassigned s ↔ ∀ rest, Text.skipBlank s ≠ '=' :: rest := by
  rcases skipBlank_split s with ⟨w, hw, hs, -⟩
  constructor
  · intro h rest hskip
    exact h w rest hw (by rw [← hskip]; exact hs)
  · intro h v rest hv heq
    apply h rest
    rw [heq, skipBlank_append hv]
    exact skipBlank_eq_self (by simp; decide)

/-- A text without an equals sign in front has none in front of a tag's end. -/
theorem unassigned_tagEnd {s : List Char} (h : Unassigned s) (selfClosing : Bool)
    (rest : List Char) : Unassigned (s ++ tagEnd selfClosing ++ rest) := by
  rw [unassigned_iff] at h ⊢
  intro after heq
  rcases skipBlank_split s with ⟨w, hw, hs, hhead⟩
  rw [hs, List.append_assoc, List.append_assoc, skipBlank_append hw] at heq
  cases hskip : Text.skipBlank s with
  | nil =>
      -- Only blanks stand before the end of the tag, which is no equals sign.
      rw [hskip] at heq
      cases selfClosing <;> simp [tagEnd, Text.skipBlank, Text.isBlank] at heq
  | cons c t =>
      rw [hskip] at heq hhead
      rw [skipBlank_eq_self (by simpa using hhead)] at heq
      have hc : c = '=' := by simpa using congrArg List.head? heq
      exact h t (by rw [hskip, hc])

/-! ## Braced constructs -/

theorem codeAt_append {code : List Char} (h : Code code) (construct : Construct)
    (rest : List Char) :
    codeAt construct ('\x7b' :: code ++ '\x7d' :: rest) = .ok (code, rest) := by
  simp only [codeAt, List.cons_append, List.drop_succ_cons, List.drop_zero]
  rw [braced_append ((isCode_iff_code code).mpr h)]

theorem codeAt_eq_ok {construct : Construct} {s code rest : List Char}
    (h : codeAt construct ('\x7b' :: s) = .ok (code, rest)) :
    s = code ++ '\x7d' :: rest ∧ Code code := by
  simp only [codeAt, List.drop_succ_cons, List.drop_zero] at h
  cases hb : braced s with
  | none => rw [hb] at h; simp at h
  | some found =>
      rw [hb] at h
      simp only [Except.ok.injEq] at h
      subst h
      rcases braced_eq_some hb with ⟨hs, hcode⟩
      exact ⟨hs, (isCode_iff_code code).mp hcode⟩

theorem expressionAt_append {code : List Char} (h : Code code) (rest : List Char) :
    expressionAt ('\x7b' :: code ++ '\x7d' :: rest) =
      .ok (.expression (String.ofList code), rest) := by
  rw [expressionAt, codeAt_append h]

theorem expressionAt_eq_ok {s rest : List Char} {value : Markup}
    (h : expressionAt ('\x7b' :: s) = .ok (value, rest)) :
    ∃ code, Code code ∧ s = code ++ '\x7d' :: rest ∧ value = .expression (String.ofList code) := by
  rw [expressionAt] at h
  cases hc : codeAt .expression ('\x7b' :: s) with
  | error fault => rw [hc] at h; simp at h
  | ok found =>
      rw [hc] at h
      simp only [Except.ok.injEq, Prod.mk.injEq] at h
      rcases codeAt_eq_ok hc with ⟨hs, hcode⟩
      exact ⟨found.1, hcode, by rw [hs, h.2], h.1.symm⟩

/-- The dots of a spread are code like any other, so they neither open nor
    close anything in the code behind them. -/
theorem isCode_dots (code : List Char) : IsCode ("...".toList ++ code) ↔ IsCode code := by
  rfl

/-- A closing brace is no dot, so dots in front of code and its brace are code. -/
theorem dots_of_prefix {code rest : List Char} (h : "...".toList <+: code ++ '\x7d' :: rest) :
    ∃ left, code = "...".toList ++ left := by
  -- In shorter code the closing brace would stand in the place of a dot.
  rcases code with _ | ⟨a, _ | ⟨b, _ | ⟨c, left⟩⟩⟩
  · simp at h
  · simp at h
  · simp at h
  · refine ⟨left, ?_⟩
    simp only [String.reduceToList, List.cons_append, List.cons_prefix_cons] at h
    rcases h with ⟨rfl, rfl, rfl, -⟩
    rfl

theorem spreadAt_append {code : List Char} (h : Code code) (rest : List Char) :
    spreadAt ("\x7b...".toList ++ code ++ '\x7d' :: rest) =
      .ok (.spread (.expression (String.ofList code)), rest) := by
  have hdots : Code ("...".toList ++ code) := by
    rw [← isCode_iff_code, isCode_dots, isCode_iff_code]
    exact h
  have hcode := codeAt_append hdots .spread rest
  simp only [String.reduceToList, List.cons_append, List.nil_append] at hcode ⊢
  simp [spreadAt, hcode]

theorem spreadAt_eq_ok {s rest : List Char} {value : Markup}
    (h : spreadAt ('\x7b' :: s) = .ok (value, rest)) :
    ∃ code, Code code ∧ s = "...".toList ++ code ++ '\x7d' :: rest ∧
      value = .spread (.expression (String.ofList code)) := by
  rw [spreadAt] at h
  by_cases hpre : "\x7b...".toList.isPrefixOf ('\x7b' :: s) = true
  · rw [if_pos hpre] at h
    cases hc : codeAt .spread ('\x7b' :: s) with
    | error fault => rw [hc] at h; simp at h
    | ok found =>
        rw [hc] at h
        simp only [Except.ok.injEq, Prod.mk.injEq] at h
        rcases codeAt_eq_ok hc with ⟨hs, hcode⟩
        have hdots : "...".toList <+: found.1 ++ '\x7d' :: found.2 := by
          rw [hs, List.isPrefixOf_iff_prefix] at hpre
          exact (List.cons_prefix_cons.mp hpre).2
        rcases dots_of_prefix hdots with ⟨code, hcode'⟩
        rw [hcode', ← isCode_iff_code, isCode_dots, isCode_iff_code] at hcode
        refine ⟨code, hcode, by rw [hs, hcode', h.2], ?_⟩
        rw [← h.1, hcode']
        rfl
  · rw [if_neg hpre] at h
    simp at h

/-! ## Props -/

theorem valueAt_append {t : List Char} {value : Markup} (h : DerivesValue t value)
    (owner : String) (rest : List Char) : valueAt owner (t ++ rest) = .ok (value, rest) := by
  cases h with
  | @quoted quote raw value hquote hraw =>
      have hslash : quote ≠ '\\' := by rcases hquote with rfl | rfl <;> decide
      have hread := quotation_append hslash hraw [] rest
      rcases hquote with rfl | rfl <;> simp [valueAt, hread]
  | expression hcode =>
      have hread := expressionAt_append hcode rest
      simp only [List.cons_append, List.append_assoc, List.nil_append] at hread ⊢
      simp [valueAt, hread]

theorem valueAt_eq_ok {owner : String} {s rest : List Char} {value : Markup}
    (h : valueAt owner s = .ok (value, rest)) : ∃ t, DerivesValue t value ∧ s = t ++ rest := by
  rw [valueAt.eq_def] at h
  split at h
  · rcases expressionAt_eq_ok h with ⟨code, hcode, hs, rfl⟩
    exact ⟨_, .expression hcode, by simp [hs]⟩
  · rename_i c left _
    -- Whatever else comes after an equals sign is no value.
    by_cases hquote : (c == '"' || c == '\'') = true
    · rw [if_pos hquote] at h
      cases hq : quotation c [] left with
      | none => rw [hq] at h; simp at h
      | some found =>
          rw [hq] at h
          simp only [Except.ok.injEq, Prod.mk.injEq] at h
          rcases quotation_eq_some hq with ⟨raw, v, hv, hs, hraw⟩
          rw [List.reverse_nil, List.nil_append] at hv
          refine ⟨c :: raw ++ [c], ?_, ?_⟩
          · rw [← h.1, hv]
            exact .quoted (by simpa using hquote) hraw
          · simp [hs, h.2]
    · rw [if_neg hquote] at h
      simp at h
  · simp at h

theorem propAt_bare {n after : List Char} (hname : IsName n) (hends : EndsName after)
    (hbare : Unassigned after) :
    propAt (n ++ after) = .ok (.prop (String.ofList n) (.flag true), Text.skipBlank after) := by
  simp only [propAt, name_append hname hends, afterName_append hname hends]
  split
  · rename_i rest hskip
    exact absurd hskip ((unassigned_iff after).mp hbare rest)
  · rfl

theorem skipBlank_value {t : List Char} {value : Markup} (h : DerivesValue t value)
    (rest : List Char) : Text.skipBlank (t ++ rest) = t ++ rest := by
  apply skipBlank_eq_self
  cases h with
  | quoted hquote _ => rcases hquote with rfl | rfl <;> simp <;> decide
  | expression _ => simp; decide

theorem propAt_assigned {n v w t : List Char} {value : Markup} (hname : IsName n) (hv : Blanks v)
    (hw : Blanks w) (hvalue : DerivesValue t value) (rest : List Char) :
    propAt (n ++ v ++ '=' :: w ++ t ++ rest) = .ok (.prop (String.ofList n) value, rest) := by
  have hends : EndsName (v ++ '=' :: (w ++ (t ++ rest))) :=
    endsName_blanks hv (fun _ => by simp [EndsName]; decide)
  have hequals : Text.skipBlank ('=' :: (w ++ (t ++ rest))) = '=' :: (w ++ (t ++ rest)) :=
    skipBlank_eq_self (by simp; decide)
  simp only [List.append_assoc, List.cons_append, propAt, name_append hname hends,
    afterName_append hname hends, skipBlank_append hv, hequals, skipBlank_append hw,
    skipBlank_value hvalue, valueAt_append hvalue]

/-- A prop that is read has the form of an attribute, with blanks behind it
    that were passed over as well. What comes next of the tag's text is not
    known here, only that it is a part of what is left. -/
theorem propAt_eq_ok {s rest : List Char} {read : Markup} (hne : name s ≠ [])
    (h : propAt s = .ok (read, rest)) :
    ∃ a w, Blanks w ∧ s = a ++ w ++ rest ∧
      ∀ after left, rest = after ++ left → DerivesAttribute (w ++ after) a read := by
  have hname := isName_name hne
  rcases skipBlank_split (afterName s) with ⟨v, hv, hafter, -⟩
  simp only [propAt] at h
  split at h
  · -- An equals sign: the value ends the attribute.
    rename_i behind hskip
    rcases skipBlank_split behind with ⟨w, hw, hbehind, -⟩
    cases hval : valueAt (String.ofList (name s)) (Text.skipBlank behind) with
    | error fault => rw [hval] at h; simp at h
    | ok found =>
        rw [hval] at h
        simp only [Except.ok.injEq, Prod.mk.injEq] at h
        rcases h with ⟨rfl, rfl⟩
        rcases valueAt_eq_ok hval with ⟨t, ht, hs⟩
        refine ⟨name s ++ v ++ '=' :: w ++ t, [], by simp [Blanks], ?_, ?_⟩
        · rw [hskip, hbehind, hs] at hafter
          have hwhole := name_append_afterName s
          rw [hafter] at hwhole
          simpa using hwhole.symm
        · intro after left _
          exact .assigned hname hv hw ht
  · -- No equals sign: the name is all, and blanks behind it are passed over.
    rename_i hskip
    simp only [Except.ok.injEq, Prod.mk.injEq] at h
    rcases h with ⟨rfl, rfl⟩
    have hbare : Unassigned (afterName s) := by
      rw [unassigned_iff]
      exact hskip
    refine ⟨name s, v, hv, ?_, ?_⟩
    · rw [List.append_assoc, ← hafter, name_append_afterName]
    · -- What ends a bare name is known of all that is left, so of each part in front.
      intro after left hrest
      rw [hrest, ← List.append_assoc] at hafter
      have hends := endsName_afterName s
      rw [hafter] at hends hbare
      exact .bare hname (endsName_of_append hends) (unassigned_of_append hbare)

/-! ## The loop over attributes -/

variable {tag : String} {start : List Char} {done : List Markup}

theorem attributeLoop_spread {s rest : List Char} {read : Markup}
    (h : spreadAt ('\x7b' :: s) = .ok (read, rest)) :
    (attributeLoop tag start).run ⟨done, '\x7b' :: s⟩ =
      (attributeLoop tag start).run ⟨read :: done, rest⟩ := by
  apply Loop.run_of_next
  simp [attributeLoop, Attributes.turn, Text.skipBlank, Text.isBlank, h, Attributes.add]

theorem attributeLoop_prop {n s rest : List Char} {read : Markup} (hname : IsName n)
    (h : propAt (n ++ s) = .ok (read, rest)) :
    (attributeLoop tag start).run ⟨done, n ++ s⟩ =
      (attributeLoop tag start).run ⟨read :: done, rest⟩ := by
  apply Loop.run_of_next
  cases n with
  | nil => exact absurd rfl hname.1
  | cons c n =>
      have hc : isNameChar c = true := hname.2 c (by simp)
      have hskip : Text.skipBlank (c :: (n ++ s)) = c :: (n ++ s) :=
        skipBlank_eq_self (by simpa using isBlank_of_isNameChar c hc)
      -- None of the marks that are looked for first is a character of names.
      have hmark : ∀ d t, isNameChar d = false → c :: (n ++ s) ≠ d :: t :=
        fun d t hd => hname.append_ne hd s t
      simp only [attributeLoop, Attributes.turn, List.cons_append, hskip] at h ⊢
      split
      · rename_i heq
        simp at heq
      · rename_i heq
        exact absurd heq (hmark _ _ rfl)
      · rename_i heq
        exact absurd heq (hmark _ _ rfl)
      · rename_i heq
        exact absurd heq (hmark _ _ rfl)
      · rename_i heq
        rw [List.cons.injEq] at heq
        rw [← heq.1, ← heq.2, if_pos hc, h, Attributes.add]

theorem attributeLoop_end (selfClosing : Bool) (rest : List Char) :
    (attributeLoop tag start).run ⟨done, tagEnd selfClosing ++ rest⟩ =
      .ok ⟨tag, done.reverse, selfClosing, rest⟩ := by
  apply Loop.run_of_stop
  cases selfClosing <;> simp [attributeLoop, Attributes.turn, tagEnd, Text.skipBlank, Text.isBlank]

/-- Blanks in front of the next attribute do not matter. -/
theorem attributeLoop_blanks {v : List Char} (hv : Blanks v) (s : List Char) :
    (attributeLoop tag start).run ⟨done, v ++ s⟩ = (attributeLoop tag start).run ⟨done, s⟩ := by
  apply Loop.run_congr
  simp only [attributeLoop, Attributes.turn, skipBlank_append hv]

/-- An attribute is read in one turn, whatever its form is. -/
theorem attributeLoop_attribute {after a : List Char} {read : Markup}
    (h : DerivesAttribute after a read) (selfClosing : Bool) (rest : List Char) :
    (attributeLoop tag start).run ⟨done, a ++ (after ++ tagEnd selfClosing ++ rest)⟩ =
      (attributeLoop tag start).run ⟨read :: done, after ++ tagEnd selfClosing ++ rest⟩ := by
  cases h with
  | @spread code hcode =>
      have hread := spreadAt_append hcode (after ++ tagEnd selfClosing ++ rest)
      rw [List.append_assoc, List.singleton_append]
      exact attributeLoop_spread hread
  | bare hname hends hbare =>
      have hread := propAt_bare hname (endsName_tagEnd hends selfClosing rest)
        (unassigned_tagEnd hbare selfClosing rest)
      rw [attributeLoop_prop hname hread]
      -- The blanks behind a bare name are passed over with it.
      rcases skipBlank_split (after ++ tagEnd selfClosing ++ rest) with ⟨v, hv, hs, -⟩
      have hblanks := @attributeLoop_blanks tag start (.prop (String.ofList a) (.flag true) :: done)
        v hv (Text.skipBlank (after ++ tagEnd selfClosing ++ rest))
      rw [← hs] at hblanks
      exact hblanks.symm
  | @assigned n v w t value hname hv hw hvalue =>
      have hread := propAt_assigned hname hv hw hvalue (after ++ tagEnd selfClosing ++ rest)
      simp only [List.append_assoc, List.cons_append] at hread ⊢
      exact attributeLoop_prop hname hread

/-- The attributes of a tag are read to its end, behind those that are done. -/
theorem attributeLoop_append {a : List Char} {attributes : List Markup}
    (h : DerivesAttributes a attributes) (selfClosing : Bool) (rest : List Char) :
    (attributeLoop tag start).run ⟨done, a ++ tagEnd selfClosing ++ rest⟩ =
      .ok ⟨tag, done.reverse ++ attributes, selfClosing, rest⟩ := by
  induction h generalizing done with
  | nil => rw [List.nil_append, attributeLoop_end, List.append_nil]
  | @cons a w after first others hfirst hw _ ih =>
      have hread := @attributeLoop_attribute tag start done _ _ _ hfirst selfClosing rest
      simp only [List.append_assoc] at hread ih ⊢
      rw [hread, attributeLoop_blanks hw, ih]
      simp

/-- What one turn of the loop takes: an attribute, with blanks on both sides. -/
theorem attributes_turn_next {a next : Attributes}
    (h : a.turn tag start = .ok (.next next)) :
    ∃ v t w read, Blanks v ∧ Blanks w ∧ a.rest = v ++ t ++ w ++ next.rest ∧
      next.done = read :: a.done ∧
      ∀ after left, next.rest = after ++ left → DerivesAttribute (w ++ after) t read := by
  rcases skipBlank_split a.rest with ⟨v, hv, hrest, -⟩
  simp only [Attributes.turn] at h
  split at h
  -- The end of the source and the two ends of a tag are no turns that go on.
  · simp at h
  · simp at h
  · simp at h
  · rename_i s hs
    cases hread : spreadAt ('\x7b' :: s) with
    | error fault => rw [hread] at h; simp [Attributes.add] at h
    | ok found =>
        rw [hread] at h
        simp only [Attributes.add, Except.ok.injEq, Turn.next.injEq] at h
        subst h
        rcases spreadAt_eq_ok hread with ⟨code, hcode, rfl, hvalue⟩
        refine ⟨v, "\x7b...".toList ++ code ++ ['\x7d'], [], found.1, hv, by simp [Blanks], ?_,
          rfl, ?_⟩
        · rw [hrest, hs]
          simp
        · intro after left _
          rw [hvalue]
          exact .spread hcode
  · rename_i c s _ _ _ hs
    by_cases hc : isNameChar c = true
    · rw [if_pos hc] at h
      cases hread : propAt (c :: s) with
      | error fault => rw [hread] at h; simp [Attributes.add] at h
      | ok found =>
          rw [hread] at h
          simp only [Attributes.add, Except.ok.injEq, Turn.next.injEq] at h
          subst h
          rcases propAt_eq_ok (by simp [name, hc]) hread with ⟨t, w, hw, hcs, hform⟩
          refine ⟨v, t, w, found.1, hv, hw, ?_, rfl, hform⟩
          rw [hrest, hs, hcs]
          simp
    · rw [if_neg hc] at h
      simp at h

theorem attributes_turn_stop {a : Attributes} {found : Opening}
    (h : a.turn tag start = .ok (.stop found)) :
    ∃ v, Blanks v ∧ a.rest = v ++ tagEnd found.selfClosing ++ found.rest ∧ found.name = tag ∧
      found.attributes = a.done.reverse := by
  rcases skipBlank_split a.rest with ⟨v, hv, hrest, -⟩
  -- An attribute never ends the tag.
  have hadd : ∀ done read, Attributes.add done read ≠ .ok (.stop found) := by
    intro done read
    cases read <;> simp [Attributes.add]
  simp only [Attributes.turn] at h
  split at h
  · simp at h
  · rename_i left hl
    simp only [Except.ok.injEq, Turn.stop.injEq] at h
    subst h
    exact ⟨v, hv, by rw [hrest, hl]; simp [tagEnd], rfl, rfl⟩
  · rename_i left hl
    simp only [Except.ok.injEq, Turn.stop.injEq] at h
    subst h
    exact ⟨v, hv, by rw [hrest, hl]; simp [tagEnd], rfl, rfl⟩
  · exact absurd h (hadd _ _)
  · split at h
    · exact absurd h (hadd _ _)
    · simp at h

/-- What is read to the end of a tag has the form of attributes. -/
theorem attributeLoop_eq_ok {a : Attributes} {found : Opening}
    (h : (attributeLoop tag start).run a = .ok found) :
    ∃ v t attributes, Blanks v ∧ DerivesAttributes t attributes ∧
      a.rest = v ++ t ++ tagEnd found.selfClosing ++ found.rest ∧ found.name = tag ∧
      found.attributes = a.done.reverse ++ attributes := by
  refine Loop.of_run (R := fun a found => ∃ v t attributes, Blanks v ∧
      DerivesAttributes t attributes ∧
      a.rest = v ++ t ++ tagEnd found.selfClosing ++ found.rest ∧ found.name = tag ∧
      found.attributes = a.done.reverse ++ attributes) ?_ ?_ h
  · intro a found hstop
    rcases attributes_turn_stop hstop with ⟨v, hv, hrest, hname, hdone⟩
    exact ⟨v, [], [], hv, .nil, by simpa using hrest, hname, by simpa using hdone⟩
  · intro a next found hnext hback
    rcases attributes_turn_next hnext with ⟨v, t, w, read, hv, hw, hrest, hdone, hform⟩
    rcases hback with ⟨v', t', attributes, hv', hattributes, hrest', hname, hdone'⟩
    -- The blanks in front of what follows stand behind this attribute.
    have hfirst := hform (v' ++ t') (tagEnd found.selfClosing ++ found.rest) (by simp [hrest'])
    rw [← List.append_assoc] at hfirst
    refine ⟨v, t ++ (w ++ v') ++ t', read :: attributes, hv,
      .cons hfirst (blanks_append hw hv') hattributes, ?_, hname, ?_⟩
    · rw [hrest, hrest']
      simp
    · rw [hdone', hdone]
      simp

/-! ## Tags -/

theorem openingAt_append {n w a : List Char} {attributes : List Markup} (hname : IsName n)
    (hends : EndsName (w ++ a)) (hw : Blanks w) (h : DerivesAttributes a attributes)
    (selfClosing : Bool) (rest : List Char) :
    openingAt ('<' :: n ++ w ++ a ++ tagEnd selfClosing ++ rest) =
      .ok ⟨String.ofList n, attributes, selfClosing, rest⟩ := by
  have hends' := endsName_tagEnd hends selfClosing rest
  have hread := @attributeLoop_append (String.ofList n)
    ('<' :: n ++ w ++ a ++ tagEnd selfClosing ++ rest) [] a attributes h selfClosing rest
  simp only [List.cons_append, List.append_assoc, List.reverse_nil, List.nil_append] at *
  rw [openingAt, List.drop_succ_cons, List.drop_zero, name_append hname hends',
    afterName_append hname hends']
  split
  · exact absurd rfl hname.1
  · rw [attributeLoop_blanks hw, hread]

theorem openingAt_eq_ok {s : List Char} {found : Opening} (h : openingAt ('<' :: s) = .ok found) :
    ∃ n w a, IsName n ∧ EndsName (w ++ a) ∧ Blanks w ∧ DerivesAttributes a found.attributes ∧
      found.name = String.ofList n ∧ s = n ++ w ++ a ++ tagEnd found.selfClosing ++ found.rest := by
  rw [openingAt, List.drop_succ_cons, List.drop_zero] at h
  split at h
  · simp at h
  · rename_i hne
    rcases attributeLoop_eq_ok h with ⟨w, a, attributes, hw, ha, hrest, hname, hdone⟩
    have hafter := endsName_afterName s
    simp only [List.reverse_nil, List.nil_append] at hrest hdone
    rw [hrest] at hafter
    refine ⟨name s, w, a, isName_name hne, ?_, hw, hdone ▸ ha, hname, ?_⟩
    · -- The name was read as far as it goes.
      rw [List.append_assoc] at hafter
      exact endsName_of_append hafter
    · have hwhole := name_append_afterName s
      rw [hrest] at hwhole
      simpa using hwhole.symm

theorem closingAt_append {n w : List Char} (hname : IsName n) (hw : Blanks w) (rest : List Char) :
    closingAt (String.ofList n) ("</".toList ++ n ++ w ++ ">".toList ++ rest) = .ok rest := by
  have hends : EndsName (w ++ '>' :: rest) :=
    endsName_blanks hw (fun _ => by simp [EndsName]; decide)
  have hskip : Text.skipBlank ('>' :: rest) = '>' :: rest := skipBlank_eq_self (by simp; decide)
  simp only [String.reduceToList, List.cons_append, List.nil_append, List.append_assoc, closingAt,
    List.drop_succ_cons, List.drop_zero, name_append hname hends, afterName_append hname hends,
    skipBlank_append hw, hskip]
  split
  · exact absurd rfl hname.1
  · rw [if_pos (beq_self_eq_true _)]

theorem closingAt_eq_ok {s left n : List Char}
    (h : closingAt (String.ofList n) ('<' :: '/' :: s) = .ok left) :
    ∃ w, Blanks w ∧ s = n ++ w ++ ">".toList ++ left := by
  rw [closingAt, List.drop_succ_cons, List.drop_succ_cons, List.drop_zero] at h
  split at h
  · simp at h
  · by_cases heq : (String.ofList (name s) == String.ofList n) = true
    · rw [if_pos heq] at h
      -- The names are compared as strings, and equal strings have equal characters.
      have hn : name s = n := String.ofList_injective (beq_iff_eq.mp heq)
      rcases skipBlank_split (afterName s) with ⟨w, hw, hafter, -⟩
      split at h
      · rename_i hl
        simp only [Except.ok.injEq] at h
        rw [hl, h] at hafter
        refine ⟨w, hw, ?_⟩
        have hwhole := name_append_afterName s
        rw [hafter, hn] at hwhole
        simpa using hwhole.symm
      · simp at h
    · rw [if_neg heq] at h
      simp at h

end Markup

end Afx
