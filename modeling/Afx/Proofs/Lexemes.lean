import Afx.Markup.Lexeme
import Mathlib.Data.List.TakeWhile

/-!
# What the Lexeme Readers Accept

The readers of names, comments, quoted values and code take a piece off the
front of a source. Here each piece is described on its own, as a form of words
that does not mention what reads it, and each reader is shown to take off
exactly the pieces of that form.

A name is as long as possible, so it is described together with what follows
it: `EndsName` says that no name goes on there. A comment ends at its first end
mark. Quoted values and code have forms that nest, and these are inductive:
`Quoted` pairs a written value with what it stands for, and `Code` lets braces
nest around code and ignores them inside quotations.

`Code` says nothing about depths or states, while the reader of code is an
automaton that counts them. What bridges the two is `Layers`: code in which
some braces are already open is a layer of balanced code for each of them, with
a closing brace behind every layer. An automaton that ends where it started has
walked through such layers, and this is proved for all of its states at once,
because a quotation is entered and left one character at a time.

## Main definitions

* `Blanks`: A text of blanks.
* `IsName`: A text that is a name.
* `EndsName`: A text into which no name goes on.
* `Quoted`: A quoted value as it is written and what it stands for.
* `Code`: Code whose braces nest.
* `CodeState.scan`: The automaton run over a whole text.
* `IsCode`: Code that leaves the automaton as it was.
* `Layers`: Code with a number of braces open before it.

## Theorems

* `name_append`, `afterName_append`: A maximal name is read as a whole.
* `skipBlank_append`: Leading blanks are skipped.
* `splitAtMark_commentEnd`, `splitAtMark_eq_some`: A text is cut at the first mark.
* `quotation_append`, `quotation_eq_some`: A quoted value is read exactly.
* `braced_append`, `braced_eq_some`: The automaton delimits exactly the code
  that leaves it as it was.
* `isCode_iff_code`: This is the code whose braces nest.
-/

namespace Afx

namespace Markup

/-! ## Blanks and names -/

/-- A text of blanks, perhaps empty. -/
def Blanks (w : List Char) : Prop :=
  ∀ c ∈ w, Text.isBlank c = true

/-- A name has at least one character, and all of them are characters of names. -/
def IsName (n : List Char) : Prop :=
  n ≠ [] ∧ ∀ c ∈ n, isNameChar c = true

instance (n : List Char) : Decidable (IsName n) :=
  decidable_of_iff (n ≠ [] ∧ n.all isNameChar = true) (by simp [IsName])

/-- No name goes on into this text. -/
def EndsName (s : List Char) : Prop :=
  ∀ c ∈ s.head?, isNameChar c = false

/-- A name starts with a character of names. -/
theorem IsName.cons {n : List Char} (h : IsName n) :
    ∃ c rest, n = c :: rest ∧ isNameChar c = true := by
  cases n with
  | nil => exact absurd rfl h.1
  | cons c rest => exact ⟨c, rest, rfl, h.2 c (by simp)⟩

/-- No name starts with a character that is none of names. -/
theorem IsName.append_ne {n : List Char} (h : IsName n) {c : Char} (hc : isNameChar c = false)
    (s t : List Char) : n ++ s ≠ c :: t := by
  intro hsame
  rcases h.cons with ⟨d, rest, rfl, hd⟩
  rw [(List.cons.inj hsame).1, hc] at hd
  exact Bool.false_ne_true hd

theorem isName_append {m n : List Char} (hm : IsName m) (hn : IsName n) : IsName (m ++ n) := by
  refine ⟨by simp [hm.1], fun c hc => ?_⟩
  rcases List.mem_append.mp hc with hc | hc
  · exact hm.2 c hc
  · exact hn.2 c hc

/-- A number is written as a name. -/
theorem isName_toString (n : Nat) : IsName (toString n).toList := by
  have hdigits : (toString n).toList = Nat.toDigits 10 n := Nat.toList_repr
  rw [hdigits]
  refine ⟨Nat.toDigits_ne_nil, fun c hc => ?_⟩
  have hdigit := Nat.isDigit_of_mem_toDigits (by decide) (by decide) hc
  simp [isNameChar, Char.isAlphanum, hdigit]

/-- Texts that end in numbers and start alike end in the same number. -/
theorem append_toString_inj {front : String} {m n : Nat} :
    front ++ toString m = front ++ toString n ↔ m = n := by
  constructor
  · intro h
    have hdigits : Nat.toDigits 10 m = Nat.toDigits 10 n := by
      rw [← String.toList_inj, String.toList_append, String.toList_append] at h
      rw [← Nat.toList_repr, ← Nat.toList_repr]
      exact List.append_cancel_left h
    rw [← @Nat.ofDigitChars_ten_toDigits m, hdigits, Nat.ofDigitChars_ten_toDigits]
  · rintro rfl
    rfl

/-- All characters of names lie in a range that holds no blank. -/
theorem toNat_of_isNameChar {c : Char} (h : isNameChar c = true) :
    c.toNat = 0x2d ∨ c.toNat = 0x2e ∨ (0x30 ≤ c.toNat ∧ c.toNat ≤ 0x7a) := by
  have hclass : c.isAlphanum = (decide (0x41 ≤ c.val ∧ c.val ≤ 0x5a) ||
      (decide (0x61 ≤ c.val) && decide (c.val ≤ 0x7a)) ||
      (decide (0x30 ≤ c.val) && decide (c.val ≤ 0x39))) := rfl
  simp only [isNameChar, hclass, Bool.or_eq_true, Bool.and_eq_true, decide_eq_true_eq,
    beq_iff_eq, UInt32.le_iff_toNat_le] at h
  rcases h with ((((h | rfl) | rfl) | rfl) | rfl) | rfl
  · have hval : c.toNat = c.val.toNat := rfl
    simp at h
    omega
  all_goals decide

/-- Names hold no blanks, so a blank ends a name. -/
theorem isBlank_of_isNameChar (c : Char) (h : isNameChar c = true) : Text.isBlank c = false := by
  have hbounds := toNat_of_isNameChar h
  simp only [Text.isBlank, Bool.or_eq_false_iff, Bool.and_eq_false_iff, decide_eq_false_iff_not,
    beq_eq_false_iff_ne]
  omega

theorem isNameChar_of_isBlank (c : Char) (h : Text.isBlank c = true) : isNameChar c = false := by
  by_contra hc
  rw [isBlank_of_isNameChar c (by simpa using hc)] at h
  exact Bool.false_ne_true h

theorem blanks_append {v w : List Char} (hv : Blanks v) (hw : Blanks w) : Blanks (v ++ w) := by
  intro c hc
  rcases List.mem_append.mp hc with hc | hc
  · exact hv c hc
  · exact hw c hc

theorem skipBlank_append {w : List Char} (hw : Blanks w) (s : List Char) :
    Text.skipBlank (w ++ s) = Text.skipBlank s := by
  unfold Text.skipBlank
  exact List.dropWhile_append_of_pos hw

/-- A text that does not start with a blank is left as it is. -/
theorem skipBlank_eq_self {s : List Char} (h : ∀ c ∈ s.head?, Text.isBlank c = false) :
    Text.skipBlank s = s := by
  cases s with
  | nil => rfl
  | cons c rest => simp [Text.skipBlank, h c (by simp)]

/-- Skipping blanks takes a text of blanks off, and no blank is left in front. -/
theorem skipBlank_split (s : List Char) :
    ∃ w, Blanks w ∧ s = w ++ Text.skipBlank s ∧
      ∀ c ∈ (Text.skipBlank s).head?, Text.isBlank c = false := by
  refine ⟨s.takeWhile Text.isBlank, fun c hc => List.mem_takeWhile_imp hc, ?_, ?_⟩
  · exact (List.takeWhile_append_dropWhile).symm
  · intro c hc
    have := List.head?_dropWhile_not Text.isBlank s
    unfold Text.skipBlank at hc
    rw [Option.mem_def.mp hc] at this
    simpa using this

/-- A run of characters of one class ends where another character comes. -/
theorem takeWhile_run {p : Char → Bool} {u s : List Char} (hu : ∀ c ∈ u, p c = true)
    (hs : ∀ c ∈ s.head?, p c = false) : (u ++ s).takeWhile p = u := by
  rw [List.takeWhile_append_of_pos hu]
  cases s with
  | nil => simp
  | cons c rest => simp [hs c (by simp)]

theorem dropWhile_run {p : Char → Bool} {u s : List Char} (hu : ∀ c ∈ u, p c = true)
    (hs : ∀ c ∈ s.head?, p c = false) : (u ++ s).dropWhile p = s := by
  rw [List.dropWhile_append_of_pos hu]
  cases s with
  | nil => rfl
  | cons c rest => simp [hs c (by simp)]

theorem name_append {n s : List Char} (hn : IsName n) (hs : EndsName s) : name (n ++ s) = n := by
  unfold name
  exact takeWhile_run hn.2 hs

theorem afterName_append {n s : List Char} (hn : IsName n) (hs : EndsName s) :
    afterName (n ++ s) = s := by
  unfold afterName
  exact dropWhile_run hn.2 hs

theorem name_append_afterName (s : List Char) : name s ++ afterName s = s :=
  List.takeWhile_append_dropWhile

theorem isName_name {s : List Char} (h : name s ≠ []) : IsName (name s) :=
  ⟨h, fun _ hc => List.mem_takeWhile_imp hc⟩

theorem endsName_afterName (s : List Char) : EndsName (afterName s) := by
  intro c hc
  have := List.head?_dropWhile_not isNameChar s
  unfold afterName at hc
  rw [Option.mem_def.mp hc] at this
  simpa using this

/-! ## Text up to a mark -/

/-- The mark that ends a comment does not overlap with itself, so it stands in
    no text and mark together before the mark itself. -/
theorem not_commentEnd_prefix {c : Char} {t : List Char} (h : ¬ "-->".toList <:+: c :: t)
    (rest : List Char) : "-->".toList.isPrefixOf (c :: t ++ "-->".toList ++ rest) = false := by
  by_contra hc
  rw [Bool.not_eq_false, List.isPrefixOf_iff_prefix] at hc
  apply h
  -- A shorter text would have to share characters with the mark behind it.
  rcases t with _ | ⟨d, _ | ⟨e, t⟩⟩
  · simp at hc
  · simp at hc
  · simp only [String.reduceToList, List.cons_append, List.cons_prefix_cons, List.nil_prefix,
      and_true] at hc
    rcases hc with ⟨rfl, rfl, rfl⟩
    exact ⟨[], t, rfl⟩

theorem splitAtMark_commentEnd {t : List Char} (ht : ¬ "-->".toList <:+: t)
    (done rest : List Char) :
    splitAtMark "-->".toList done (t ++ "-->".toList ++ rest) = some (done.reverse ++ t, rest) := by
  induction t generalizing done with
  | nil => simp [splitAtMark]
  | cons c t ih =>
      have hrest : ¬ "-->".toList <:+: t := fun hc => ht (List.infix_cons hc)
      have hhere := not_commentEnd_prefix ht rest
      simp only [List.cons_append] at hhere ⊢
      rw [splitAtMark, hhere, if_neg Bool.false_ne_true, ih hrest]
      simp

theorem splitAtMark_eq_some {mark done s t rest : List Char} (hmark : mark ≠ [])
    (h : splitAtMark mark done s = some (t, rest)) :
    ∃ u, t = done.reverse ++ u ∧ s = u ++ mark ++ rest ∧ ¬ mark <:+: u := by
  induction s generalizing done with
  | nil => simp [splitAtMark, hmark] at h
  | cons c s ih =>
      rw [splitAtMark] at h
      by_cases hhere : mark.isPrefixOf (c :: s) = true
      · -- The mark stands here, and nothing comes before it.
        rw [if_pos hhere, Option.some.injEq, Prod.mk.injEq] at h
        rcases List.isPrefixOf_iff_prefix.mp hhere with ⟨v, hv⟩
        refine ⟨[], by simpa using h.1.symm, ?_, by simpa using hmark⟩
        rw [← h.2, ← hv]
        simp
      · rw [if_neg hhere] at h
        rcases ih h with ⟨u, ht, hs, hu⟩
        refine ⟨c :: u, by simpa using ht, by simp [hs], fun hc => ?_⟩
        rcases List.infix_cons_iff.mp hc with hpre | hin
        · -- A mark at the front of what was passed would have been found here.
          apply hhere
          rw [List.isPrefixOf_iff_prefix, hs, List.append_assoc, ← List.cons_append]
          exact hpre.trans (List.prefix_append _ _)
        · exact hu hin

/-! ## Quoted values -/

/-- A quoted value as it is written, without its quotes, and what it stands for:
    a backslash protects the character after it and is dropped. -/
inductive Quoted (quote : Char) : List Char → List Char → Prop where
  | nil : Quoted quote [] []
  | plain {c : Char} {raw value : List Char} (hquote : c ≠ quote) (hslash : c ≠ '\\')
      (h : Quoted quote raw value) : Quoted quote (c :: raw) (c :: value)
  | escaped (c : Char) {raw value : List Char} (h : Quoted quote raw value) :
      Quoted quote ('\\' :: c :: raw) (c :: value)

theorem quotation_append {quote : Char} {raw value : List Char} (hslash : quote ≠ '\\')
    (h : Quoted quote raw value) (done rest : List Char) :
    quotation quote done (raw ++ quote :: rest) = some (done.reverse ++ value, rest) := by
  induction h generalizing done with
  | nil =>
      rw [List.nil_append, quotation]
      · simp
      · simp [hslash]
  | plain hq hs _ ih =>
      rw [List.cons_append, quotation]
      · simp [hq, hs, ih]
      · simp [hs]
  | escaped c _ ih =>
      rw [List.cons_append, List.cons_append, quotation, ih]
      simp

theorem quotation_eq_some {quote : Char} {done s value rest : List Char}
    (h : quotation quote done s = some (value, rest)) :
    ∃ raw v, value = done.reverse ++ v ∧ s = raw ++ quote :: rest ∧ Quoted quote raw v := by
  fun_induction quotation quote done s with
  | case1 => simp at h
  | case2 done c s ih =>
      rcases ih h with ⟨raw, v, hv, hs, hq⟩
      exact ⟨'\\' :: c :: raw, c :: v, by simpa using hv, by simp [hs], .escaped c hq⟩
  | case3 done c s hc hcq =>
      -- The quote that ends the value.
      rw [Option.some.injEq, Prod.mk.injEq] at h
      refine ⟨[], [], by simpa using h.1.symm, ?_, .nil⟩
      simp [beq_iff_eq.mp hcq, h.2]
  | case4 => simp at h
  | case5 done c s hc hcq hcs ih =>
      rcases ih h with ⟨raw, v, hv, hs, hq⟩
      refine ⟨c :: raw, c :: v, by simpa using hv, by simp [hs], .plain ?_ ?_ hq⟩
      · simpa using hcq
      · simpa using hcs

/-! ## Code between braces -/

/-- Code whose braces nest, where those inside a quotation do not count. -/
inductive Code : List Char → Prop where
  | nil : Code []
  | plain {c : Char} {rest : List Char} (hquote : isCodeQuote c = false) (hopen : c ≠ '\x7b')
      (hclose : c ≠ '\x7d') (h : Code rest) : Code (c :: rest)
  | nested {inner rest : List Char} (hinner : Code inner) (h : Code rest) :
      Code ('\x7b' :: inner ++ '\x7d' :: rest)
  | quoted {quote : Char} {raw value rest : List Char} (hquote : isCodeQuote quote = true)
      (hraw : Quoted quote raw value) (h : Code rest) : Code (quote :: raw ++ quote :: rest)

namespace CodeState

/-- The state after a whole text, or nothing if a character of it closes the
    brace that the code stands in. -/
def scan (state : CodeState) (text : List Char) : Option CodeState :=
  text.foldlM next state

@[simp]
theorem scan_nil (state : CodeState) : state.scan [] = some state :=
  rfl

theorem scan_cons (state : CodeState) (c : Char) (text : List Char) :
    state.scan (c :: text) = (state.next c).bind fun after => after.scan text :=
  List.foldlM_cons

theorem scan_append (state : CodeState) (first second : List Char) :
    state.scan (first ++ second) = (state.scan first).bind fun after => after.scan second :=
  List.foldlM_append

theorem next_code_quote (depth : Nat) {c : Char} (h : isCodeQuote c = true) :
    (code depth).next c = some (quoted depth c) := by
  rw [next, if_pos h]

@[simp]
theorem next_code_open (depth : Nat) : (code depth).next '\x7b' = some (code (depth + 1)) :=
  rfl

@[simp]
theorem next_code_close (depth : Nat) : (code (depth + 1)).next '\x7d' = some (code depth) :=
  rfl

theorem next_code_plain (depth : Nat) {c : Char} (hquote : isCodeQuote c = false)
    (hopen : c ≠ '\x7b') (hclose : c ≠ '\x7d') : (code depth).next c = some (code depth) := by
  simp [next, hquote, hopen, hclose]

@[simp]
theorem next_quoted_slash (depth : Nat) (quote : Char) :
    (quoted depth quote).next '\\' = some (escaped depth quote) :=
  rfl

theorem next_quoted_quote (depth : Nat) {quote : Char} (h : quote ≠ '\\') :
    (quoted depth quote).next quote = some (code depth) := by
  simp [next, h]

theorem next_quoted_plain (depth : Nat) {quote c : Char} (hquote : c ≠ quote) (hslash : c ≠ '\\') :
    (quoted depth quote).next c = some (quoted depth quote) := by
  simp [next, hquote, hslash]

@[simp]
theorem next_escaped (depth : Nat) (quote c : Char) :
    (escaped depth quote).next c = some (quoted depth quote) :=
  rfl

/-- Only a closing brace ends code, and only outside of quotations and of
    braces that the code has opened itself. -/
theorem next_eq_none_iff (state : CodeState) (c : Char) :
    state.next c = none ↔ state = code 0 ∧ c = '\x7d' := by
  constructor
  · intro h
    cases state with
    | code depth =>
        by_cases hclose : c = '\x7d'
        · subst hclose
          cases depth with
          | zero => exact ⟨rfl, rfl⟩
          | succ depth => simp at h
        · by_cases hquote : isCodeQuote c = true
          · rw [next_code_quote depth hquote] at h
            simp at h
          · by_cases hopen : c = '\x7b'
            · subst hopen
              simp at h
            · rw [next_code_plain depth (by simpa using hquote) hopen hclose] at h
              simp at h
    | quoted depth quote =>
        simp only [next] at h
        split at h
        · simp at h
        · split at h <;> simp at h
    | escaped depth quote => simp at h
  · rintro ⟨rfl, rfl⟩
    rfl

end CodeState

/-- Code that leaves the automaton as it was: no brace and no quotation stays open. -/
def IsCode (code : List Char) : Prop :=
  CodeState.scan (.code 0) code = some (.code 0)

theorem bracedFrom_append {state : CodeState} {code : List Char}
    (h : state.scan code = some (.code 0)) (done rest : List Char) :
    bracedFrom state done (code ++ '\x7d' :: rest) = some (done.reverse ++ code, rest) := by
  induction code generalizing state done with
  | nil =>
      simp only [CodeState.scan_nil, Option.some.injEq] at h
      simp [bracedFrom, (CodeState.next_eq_none_iff state '\x7d').mpr ⟨h, rfl⟩]
  | cons c code ih =>
      rw [CodeState.scan_cons] at h
      cases hn : state.next c with
      | none => rw [hn] at h; simp at h
      | some after =>
          rw [hn, Option.bind_some] at h
          simp [bracedFrom, hn, ih h]

theorem bracedFrom_eq_some {state : CodeState} {done s code rest : List Char}
    (h : bracedFrom state done s = some (code, rest)) :
    ∃ taken, code = done.reverse ++ taken ∧ s = taken ++ '\x7d' :: rest ∧
      state.scan taken = some (.code 0) := by
  induction s generalizing state done with
  | nil => simp [bracedFrom] at h
  | cons c s ih =>
      rw [bracedFrom] at h
      cases hn : state.next c with
      | none =>
          -- Only the closing brace of the code stops the automaton.
          rw [hn] at h
          simp only [Option.some.injEq, Prod.mk.injEq] at h
          rcases (CodeState.next_eq_none_iff state c).mp hn with ⟨hstate, hc⟩
          exact ⟨[], by simpa using h.1.symm, by simp [hc, h.2], by simp [hstate]⟩
      | some after =>
          rw [hn] at h
          rcases ih h with ⟨taken, hcode, hs, hscan⟩
          refine ⟨c :: taken, by simpa using hcode, by simp [hs], ?_⟩
          rw [CodeState.scan_cons, hn, Option.bind_some, hscan]

theorem braced_append {code : List Char} (h : IsCode code) (rest : List Char) :
    braced (code ++ '\x7d' :: rest) = some (code, rest) := by
  rw [braced, bracedFrom_append h]
  simp

theorem braced_eq_some {s code rest : List Char} (h : braced s = some (code, rest)) :
    s = code ++ '\x7d' :: rest ∧ IsCode code := by
  rcases bracedFrom_eq_some h with ⟨taken, hcode, hs, hscan⟩
  rw [List.reverse_nil, List.nil_append] at hcode
  subst hcode
  exact ⟨hs, hscan⟩

theorem ne_backslash_of_isCodeQuote {quote : Char} (h : isCodeQuote quote = true) :
    quote ≠ '\\' := by
  rintro rfl
  simp [isCodeQuote] at h

theorem scan_quoted {quote : Char} {raw value : List Char} (h : Quoted quote raw value)
    (depth : Nat) : CodeState.scan (.quoted depth quote) raw = some (.quoted depth quote) := by
  induction h with
  | nil => rfl
  | plain hquote hslash _ ih =>
      rw [CodeState.scan_cons, CodeState.next_quoted_plain depth hquote hslash,
        Option.bind_some, ih]
  | escaped c _ ih =>
      rw [CodeState.scan_cons, CodeState.next_quoted_slash, Option.bind_some, CodeState.scan_cons,
        CodeState.next_escaped, Option.bind_some, ih]

/-- Code whose braces nest leaves the automaton as it was, at any depth. -/
theorem scan_code {code : List Char} (h : Code code) (depth : Nat) :
    CodeState.scan (.code depth) code = some (.code depth) := by
  induction h generalizing depth with
  | nil => rfl
  | plain hquote hopen hclose _ ih =>
      rw [CodeState.scan_cons, CodeState.next_code_plain depth hquote hopen hclose,
        Option.bind_some, ih]
  | nested _ _ ihinner ih =>
      rw [List.cons_append, CodeState.scan_cons, CodeState.next_code_open, Option.bind_some,
        CodeState.scan_append, ihinner, Option.bind_some, CodeState.scan_cons,
        CodeState.next_code_close, Option.bind_some, ih]
  | quoted hquote hraw _ ih =>
      rw [List.cons_append, CodeState.scan_cons, CodeState.next_code_quote depth hquote,
        Option.bind_some, CodeState.scan_append, scan_quoted hraw, Option.bind_some,
        CodeState.scan_cons, CodeState.next_quoted_quote depth (ne_backslash_of_isCodeQuote hquote),
        Option.bind_some, ih]

/-- Code with a number of braces open before it: a layer of code for each of
    them, with its closing brace, and then code again. -/
inductive Layers : Nat → List Char → Prop where
  | last {code : List Char} (h : Code code) : Layers 0 code
  | more {depth : Nat} {code rest : List Char} (h : Code code) (hrest : Layers depth rest) :
      Layers (depth + 1) (code ++ '\x7d' :: rest)

/-- What the text behind a state of the automaton has to look like for the
    automaton to end where it started. -/
def Demands : CodeState → List Char → Prop
  | .code depth, text => Layers depth text
  | .quoted depth quote, text =>
    ∃ raw value rest, Quoted quote raw value ∧ text = raw ++ quote :: rest ∧ Layers depth rest
  | .escaped depth quote, text =>
    ∃ c raw value rest, Quoted quote raw value ∧ text = c :: raw ++ quote :: rest ∧
      Layers depth rest

theorem layers_plain {depth : Nat} {c : Char} {text : List Char} (hquote : isCodeQuote c = false)
    (hopen : c ≠ '\x7b') (hclose : c ≠ '\x7d') (h : Layers depth text) :
    Layers depth (c :: text) := by
  cases h with
  | last h => exact .last (.plain hquote hopen hclose h)
  | more h hrest => exact .more (.plain hquote hopen hclose h) hrest

theorem layers_quoted {depth : Nat} {quote : Char} {raw value text : List Char}
    (hquote : isCodeQuote quote = true) (hraw : Quoted quote raw value) (h : Layers depth text) :
    Layers depth (quote :: raw ++ quote :: text) := by
  cases h with
  | last h => exact .last (.quoted hquote hraw h)
  | @more depth code rest h hrest =>
      have := Layers.more (.quoted hquote hraw h) hrest
      simpa using this

/-- An opening brace and the layer behind it, up to its closing brace, belong to
    one layer. -/
theorem layers_open {depth : Nat} {text : List Char} (h : Layers (depth + 1) text) :
    Layers depth ('\x7b' :: text) := by
  cases h with
  | @more _ inner rest hinner hrest =>
      cases hrest with
      | last h => exact .last (.nested hinner h)
      | @more depth code rest h hrest =>
          have := Layers.more (.nested hinner h) hrest
          simpa using this

/-- What the automaton walks through to where it started has the form that its
    state demands. The induction is on the text, one character at a time, so
    that every state is covered: a quotation is met in its middle as well. -/
theorem demands_of_scan {text : List Char} {state : CodeState}
    (h : state.scan text = some (.code 0)) : Demands state text := by
  induction text generalizing state with
  | nil =>
      rw [CodeState.scan_nil, Option.some.injEq] at h
      subst h
      exact .last .nil
  | cons c text ih =>
      rw [CodeState.scan_cons] at h
      cases state with
      | code depth =>
          by_cases hquote : isCodeQuote c = true
          · -- The rest of the quotation is demanded by the state behind its quote.
            rw [CodeState.next_code_quote depth hquote, Option.bind_some] at h
            rcases ih h with ⟨raw, value, rest, hraw, rfl, hrest⟩
            exact layers_quoted hquote hraw hrest
          · by_cases hopen : c = '\x7b'
            · subst hopen
              rw [CodeState.next_code_open, Option.bind_some] at h
              exact layers_open (ih h)
            · by_cases hclose : c = '\x7d'
              · subst hclose
                cases depth with
                | zero => simp [(CodeState.next_eq_none_iff _ _).mpr ⟨rfl, rfl⟩] at h
                | succ depth =>
                    -- The layer that this brace closes has come to its end.
                    rw [CodeState.next_code_close, Option.bind_some] at h
                    exact .more .nil (ih h)
              · have hplain : isCodeQuote c = false := by simpa using hquote
                rw [CodeState.next_code_plain depth hplain hopen hclose, Option.bind_some] at h
                exact layers_plain hplain hopen hclose (ih h)
      | quoted depth quote =>
          by_cases hslash : c = '\\'
          · subst hslash
            rw [CodeState.next_quoted_slash, Option.bind_some] at h
            rcases ih h with ⟨d, raw, value, rest, hraw, rfl, hrest⟩
            exact ⟨'\\' :: d :: raw, d :: value, rest, .escaped d hraw, rfl, hrest⟩
          · by_cases hquote : c = quote
            · -- The quotation ends, and the layers behind it are those of the code.
              subst hquote
              rw [CodeState.next_quoted_quote depth hslash, Option.bind_some] at h
              exact ⟨[], [], text, .nil, rfl, ih h⟩
            · rw [CodeState.next_quoted_plain depth hquote hslash, Option.bind_some] at h
              rcases ih h with ⟨raw, value, rest, hraw, rfl, hrest⟩
              exact ⟨c :: raw, c :: value, rest, .plain hquote hslash hraw, rfl, hrest⟩
      | escaped depth quote =>
          rw [CodeState.next_escaped, Option.bind_some] at h
          rcases ih h with ⟨raw, value, rest, hraw, rfl, hrest⟩
          exact ⟨c, raw, value, rest, hraw, rfl, hrest⟩

/-- The automaton ends where it started exactly on code whose braces nest. -/
theorem isCode_iff_code (code : List Char) : IsCode code ↔ Code code := by
  constructor
  · intro h
    have hlayers : Layers 0 code := demands_of_scan h
    cases hlayers with
    | last h => exact h
  · intro h
    exact scan_code h 0

end Markup

end Afx
