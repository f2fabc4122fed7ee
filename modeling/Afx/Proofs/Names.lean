import Afx.Proofs.Pattern
import Afx.Fusion.Conversion

/-!
# Names and the Words in Them

The name of a component should not depend on how its file is spelled: with
underscores, with hyphens, or with capitals alone, the same words give the same
name. Names are found in one walk that remembers only whether a letter stands
directly before, and here that walk is told by words.

A word is a run of small letters, a capital with small letters behind it, or a
run of digits. `wordPattern` is the pattern of such words, and what it finds in a
text one after another, each with a capital first letter, is the name. The bridge
is one equation for each kind of word: the walk makes the first letter of a word
a capital, keeps its other characters, and has forgotten the word behind it. The
flag is still set there if the word is of letters, but only a small letter would
notice, and a small letter would belong to the word.

The same equations give the name of words that are put together in any of the
styles, because no style puts a small letter directly behind a word.

## Main definitions

* `capitalised`: A word with a capital first letter.
* `wordPattern`: The pattern of words.
* `pascalCase`, `camelCase`: Words put together with capitals.

## Theorems

* `pascalFrom_letters`, `pascalFrom_digits`: What the walk makes of a word.
* `pascalFrom_of_search`: The walk goes from one word of the pattern to the next.
* `pascalFrom_of_finds`: A name is the words that the pattern finds.
* `pascal_joined`, `pascal_pascalCase`, `pascal_camelCase`: Words in each style.
* `pascalFrom_kept`: What the walk makes of a character.
* `isAlphanum_pascalFrom`, `toLower_pascalFrom`, `pascalFrom_pascalFrom`: What holds of the
  name of any text.
* `names_follow_words`: A name is made of words, whatever their style.
-/

namespace Afx

namespace Text

/-! ## Letters -/

theorem isLower_iff {c : Char} : c.isLower = true ↔ 0x61 ≤ c.val ∧ c.val ≤ 0x7a := by
  have hclass : c.isLower = (decide (0x61 ≤ c.val) && decide (c.val ≤ 0x7a)) := rfl
  rw [hclass, Bool.and_eq_true, decide_eq_true_eq, decide_eq_true_eq]

theorem isUpper_iff {c : Char} : c.isUpper = true ↔ 0x41 ≤ c.val ∧ c.val ≤ 0x5a :=
  decide_eq_true_iff

theorem isDigit_iff {c : Char} : c.isDigit = true ↔ 0x30 ≤ c.val ∧ c.val ≤ 0x39 := by
  have hclass : c.isDigit = (decide (0x30 ≤ c.val) && decide (c.val ≤ 0x39)) := rfl
  rw [hclass, Bool.and_eq_true, decide_eq_true_eq, decide_eq_true_eq]

theorem isAlpha_eq (c : Char) : c.isAlpha = (c.isUpper || c.isLower) := rfl

theorem isAlphanum_eq (c : Char) : c.isAlphanum = (c.isUpper || c.isLower || c.isDigit) := rfl

theorem isLower_of_isUpper {c : Char} (hc : c.isUpper = true) : c.isLower = false := by
  grind [isUpper_iff, isLower_iff]

theorem isUpper_of_isLower {c : Char} (hc : c.isLower = true) : c.isUpper = false := by
  grind [isUpper_iff, isLower_iff]

theorem not_letter_of_isDigit {c : Char} (hc : c.isDigit = true) :
    c.isLower = false ∧ c.isUpper = false := by
  grind [isDigit_iff, isUpper_iff, isLower_iff]

theorem toUpper_of_not_isLower {c : Char} (hc : c.isLower = false) : c.toUpper = c :=
  dif_neg fun h => Bool.eq_false_iff.mp hc (isLower_iff.mpr h)

theorem toLower_of_not_isUpper {c : Char} (hc : c.isUpper = false) : c.toLower = c :=
  dif_neg fun h => Bool.eq_false_iff.mp hc (isUpper_iff.mpr h)

/-- The capital of a small letter is a capital, and the letter is what it stands for. -/
theorem toUpper_of_isLower {c : Char} (hc : c.isLower = true) :
    c.toUpper.isUpper = true ∧ c.toUpper.toLower = c := by
  have hascii : ∀ n < 128, (Char.ofNat n).isLower = true →
      (Char.ofNat n).toUpper.isUpper = true ∧
        (Char.ofNat n).toUpper.toLower = Char.ofNat n := by
    decide
  have hlast : c.val ≤ 127 := UInt32.le_trans (isLower_iff.mp hc).2 (by decide)
  have h := hascii c.toNat (Nat.lt_succ_of_le (UInt32.le_iff_toNat_le.mp hlast))
  rw [Char.ofNat_toNat] at h
  exact h hc

/-- A capital is no small letter, whatever it is the capital of. -/
theorem isLower_toUpper (c : Char) : c.toUpper.isLower = false := by
  cases hc : c.isLower with
  | true => exact isLower_of_isUpper (toUpper_of_isLower hc).1
  | false => rw [toUpper_of_not_isLower hc, hc]

/-! ## One character -/

theorem pascalFrom_lower {c : Char} (hc : c.isLower = true) (inWord : Bool) (rest : List Char) :
    pascalFrom inWord (c :: rest) =
      (if inWord then c else c.toUpper) :: pascalFrom true rest := by
  rw [pascalFrom, if_pos hc]

theorem pascalFrom_upper {c : Char} (hc : c.isUpper = true) (inWord : Bool) (rest : List Char) :
    pascalFrom inWord (c :: rest) = c :: pascalFrom true rest := by
  rw [pascalFrom, if_neg (by simp [isLower_of_isUpper hc]), if_pos hc]

theorem pascalFrom_digit {c : Char} (hc : c.isDigit = true) (inWord : Bool) (rest : List Char) :
    pascalFrom inWord (c :: rest) = c :: pascalFrom false rest := by
  simp [pascalFrom, not_letter_of_isDigit hc, hc]

theorem pascalFrom_other {c : Char} (hc : c.isAlphanum = false) (inWord : Bool)
    (rest : List Char) : pascalFrom inWord (c :: rest) = pascalFrom false rest := by
  rw [isAlphanum_eq, Bool.or_eq_false_iff, Bool.or_eq_false_iff] at hc
  simp [pascalFrom, hc]

/-- A character is a letter of either case, a digit, or none that names have. -/
theorem char_cases (c : Char) :
    c.isLower = true ∨ c.isUpper = true ∨ c.isDigit = true ∨ c.isAlphanum = false := by
  rw [isAlphanum_eq]
  cases c.isLower <;> cases c.isUpper <;> cases c.isDigit <;> simp

/-- Only a small letter asks whether a letter stands before it. -/
theorem pascalFrom_of_head {s : List Char} (h : ∀ c ∈ s.head?, c.isLower = false)
    (inWord : Bool) : pascalFrom inWord s = pascalFrom false s := by
  cases s with
  | nil => rfl
  | cons c rest => simp [pascalFrom, h c rfl]

/-! ## Words -/

/-- A word with a capital first letter. -/
def capitalised : List Char → List Char
  | [] => []
  | c :: word => c.toUpper :: word.map Char.toLower

/-- Small letters and digits behind the first character stay as they are. -/
theorem capitalised_cons (c : Char) {run : List Char} (hrun : ∀ d ∈ run, d.isUpper = false) :
    capitalised (c :: run) = c.toUpper :: run := by
  have hmap : run.map Char.toLower = run.map id :=
    List.map_congr_left fun d hd => toLower_of_not_isUpper (hrun d hd)
  rw [capitalised, hmap, List.map_id]

theorem pascalFrom_run {run : List Char} (hrun : ∀ c ∈ run, c.isLower = true)
    (rest : List Char) : pascalFrom true (run ++ rest) = run ++ pascalFrom true rest := by
  induction run with
  | nil => rfl
  | cons c run ih =>
      rw [List.forall_mem_cons] at hrun
      rw [List.cons_append, pascalFrom_lower hrun.1, if_pos rfl, ih hrun.2, List.cons_append]

/-- A letter and the small letters behind it are one word, and behind it the walk is as at the
    start. -/
theorem pascalFrom_letters {c : Char} (hc : c.isAlpha = true) {run rest : List Char}
    (hrun : ∀ d ∈ run, d.isLower = true) (hrest : ∀ d ∈ rest.head?, d.isLower = false) :
    pascalFrom false (c :: run ++ rest) = capitalised (c :: run) ++ pascalFrom false rest := by
  have hfirst : pascalFrom false (c :: (run ++ rest)) =
      c.toUpper :: pascalFrom true (run ++ rest) := by
    rw [isAlpha_eq, Bool.or_eq_true] at hc
    rcases hc with hc | hc
    · rw [pascalFrom_upper hc, toUpper_of_not_isLower (isLower_of_isUpper hc)]
    · rw [pascalFrom_lower hc, if_neg Bool.false_ne_true]
  have hsmall : ∀ d ∈ run, d.isUpper = false := fun d hd => isUpper_of_isLower (hrun d hd)
  rw [List.cons_append, hfirst, pascalFrom_run hrun, pascalFrom_of_head hrest,
    capitalised_cons c hsmall, List.cons_append]

/-- Digits are a word of their own, which has no capital. -/
theorem pascalFrom_digits {c : Char} (hc : c.isDigit = true) {run : List Char}
    (hrun : ∀ d ∈ run, d.isDigit = true) (rest : List Char) :
    pascalFrom false (c :: run ++ rest) = capitalised (c :: run) ++ pascalFrom false rest := by
  have hbehind : pascalFrom false (run ++ rest) = run ++ pascalFrom false rest := by
    induction run with
    | nil => rfl
    | cons d run ih =>
        rw [List.forall_mem_cons] at hrun
        rw [List.cons_append, pascalFrom_digit hrun.1, ih hrun.2, List.cons_append]
  rw [List.cons_append, pascalFrom_digit hc, hbehind,
    capitalised_cons c fun d hd => (not_letter_of_isDigit (hrun d hd)).2,
    toUpper_of_not_isLower (not_letter_of_isDigit hc).1, List.cons_append]

/-! ## Words by a pattern -/

/-- A character of one class and as many of another as possible. -/
def runPattern (first others : Char → Bool) : Pattern :=
  .seq (.one first) (.many (.one others))

/-- Small letters, or a capital and small letters, or digits. -/
def wordPattern : Pattern :=
  .either (runPattern Char.isLower Char.isLower)
    (.either (runPattern Char.isUpper Char.isLower) (runPattern Char.isDigit Char.isDigit))

/-- A repetition that nothing has to follow is tried with the whole run first. -/
theorem head?_repeated_one (accepts : Char → Bool) (n : Nat) (s : Place)
    (hn : s.rest.length ≤ n) :
    (Pattern.repeated (Pattern.one accepts).ends n s).head? =
      some (s.past (s.rest.takeWhile accepts)) := by
  induction n generalizing s with
  | zero =>
      rcases s with ⟨behind, rest, groups⟩
      have hrest : rest = [] := List.length_eq_zero_iff.mp (Nat.le_zero.mp hn)
      simp [Pattern.repeated, Place.past, hrest]
  | succ n ih =>
      rcases s with ⟨behind, rest, groups⟩
      cases rest with
      | nil => simp [Pattern.repeated, Pattern.ends, Place.past]
      | cons c rest =>
          by_cases hc : accepts c = true
          · have hnext := ih ⟨c :: behind, rest, groups⟩ (by simpa using hn)
            have hstep : (Pattern.one accepts).ends ⟨behind, c :: rest, groups⟩ =
                [⟨c :: behind, rest, groups⟩] := by
              simp [Pattern.ends, hc]
            rw [List.takeWhile_cons, if_pos hc, Place.past_cons _ rfl, Pattern.repeated, hstep]
            simp [hnext]
          · simp [Pattern.repeated, Pattern.ends, Place.past, hc]

theorem head?_ends_run (first others : Char → Bool) (behind : List Char) (c : Char)
    (rest : List Char) :
    ((runPattern first others).ends ⟨behind, c :: rest, []⟩).head? =
      if first c = true then
        some (Place.past ⟨behind, c :: rest, []⟩ (c :: rest.takeWhile others))
      else none := by
  by_cases hc : first c = true
  · have hrun := head?_repeated_one others rest.length ⟨c :: behind, rest, []⟩ (Nat.le_refl _)
    rw [if_pos hc, Place.past_cons _ rfl]
    simpa [runPattern, Pattern.ends, hc] using hrun
  · simp [runPattern, Pattern.ends, hc]

/-- Words of letters go on with small letters, and words of digits with digits. -/
theorem head?_ends_word (behind : List Char) (c : Char) (rest : List Char) :
    (wordPattern.ends ⟨behind, c :: rest, []⟩).head? =
      if c.isAlpha = true then
        some (Place.past ⟨behind, c :: rest, []⟩ (c :: rest.takeWhile Char.isLower))
      else if c.isDigit = true then
        some (Place.past ⟨behind, c :: rest, []⟩ (c :: rest.takeWhile Char.isDigit))
      else none := by
  rw [wordPattern, Pattern.ends, Pattern.ends, List.head?_append, List.head?_append,
    head?_ends_run, head?_ends_run, head?_ends_run, isAlpha_eq]
  by_cases hlower : c.isLower = true <;> by_cases hupper : c.isUpper = true <;>
    by_cases hdigit : c.isDigit = true <;> simp [hlower, hupper, hdigit]

/-- Where a word starts, the pattern takes it as a whole and the walk makes a word of the name
    of it. Where none starts, neither of them takes anything. -/
theorem ends_word_cases (behind : List Char) (c : Char) (rest : List Char) :
    (∃ word after, c :: rest = word ++ after ∧ word ≠ [] ∧
      (wordPattern.ends ⟨behind, c :: rest, []⟩).head? =
        some (Place.past ⟨behind, c :: rest, []⟩ word) ∧
      pascalFrom false (c :: rest) = capitalised word ++ pascalFrom false after) ∨
    ((wordPattern.ends ⟨behind, c :: rest, []⟩).head? = none ∧
      pascalFrom false (c :: rest) = pascalFrom false rest) := by
  have hsplit : ∀ others : Char → Bool,
      c :: rest = (c :: rest.takeWhile others) ++ rest.dropWhile others := fun others => by
    rw [List.cons_append, List.takeWhile_append_dropWhile]
  have hrun : ∀ {others : Char → Bool}, ∀ d ∈ rest.takeWhile others, others d = true :=
    fun d hd => List.mem_takeWhile_imp hd
  have hsmall : ∀ d ∈ (rest.dropWhile Char.isLower).head?, d.isLower = false := by
    intro d hd
    have hnot := List.head?_dropWhile_not Char.isLower rest
    rw [Option.mem_def.mp hd] at hnot
    simpa using hnot
  by_cases halpha : c.isAlpha = true
  · refine Or.inl ⟨_, _, hsplit Char.isLower, List.cons_ne_nil _ _, ?_, ?_⟩
    · rw [head?_ends_word, if_pos halpha]
    · nth_rewrite 1 [hsplit Char.isLower]
      exact pascalFrom_letters halpha hrun hsmall
  · by_cases hdigit : c.isDigit = true
    · refine Or.inl ⟨_, _, hsplit Char.isDigit, List.cons_ne_nil _ _, ?_, ?_⟩
      · rw [head?_ends_word, if_neg halpha, if_pos hdigit]
      · nth_rewrite 1 [hsplit Char.isDigit]
        exact pascalFrom_digits hdigit hrun _
    · refine Or.inr ⟨?_, pascalFrom_other (by simp [Char.isAlphanum, halpha, hdigit]) false rest⟩
      rw [head?_ends_word, if_neg halpha, if_neg hdigit]

/-- What the pattern skips has no part in a name, and what it finds is the next word. -/
theorem pascalFrom_of_search {behind rest before : List Char} {t : Place}
    (h : wordPattern.search behind rest = some (before, t)) :
    pascalFrom false rest =
      capitalised ((Place.past ⟨behind, rest, []⟩ before).upTo t) ++ pascalFrom false t.rest ∧
    t.rest.length < rest.length := by
  induction rest generalizing behind before with
  | nil => simp [Pattern.search, wordPattern, runPattern, Pattern.ends] at h
  | cons c rest ih =>
      rcases ends_word_cases behind c rest with
        ⟨word, after, hsplit, hne, hends, hwalk⟩ | ⟨hends, hwalk⟩
      · rw [Pattern.search_of_ends hends, Option.some.injEq, Prod.mk.injEq] at h
        rcases h with ⟨rfl, rfl⟩
        have hrest : (Place.past ⟨behind, c :: rest, []⟩ word).rest = after := by
          simp [Place.past, hsplit]
        have hword : (Place.past ⟨behind, c :: rest, []⟩ []).upTo
            (Place.past ⟨behind, c :: rest, []⟩ word) = word :=
          Place.upTo_past _ hsplit
        rw [hword, hrest]
        refine ⟨hwalk, ?_⟩
        rw [hsplit, List.length_append]
        have := List.length_pos_iff.mpr hne
        omega
      · rw [Pattern.search_cons hends, Option.map_eq_some_iff] at h
        rcases h with ⟨⟨skipped, t'⟩, hsearch, hpair⟩
        rw [Prod.mk.injEq] at hpair
        rcases hpair with ⟨rfl, rfl⟩
        rcases ih hsearch with ⟨hword, hlength⟩
        rw [hwalk, Place.past_cons _ rfl]
        exact ⟨hword, Nat.lt_succ_of_lt hlength⟩

theorem pascalFrom_of_search_none {behind rest : List Char}
    (h : wordPattern.search behind rest = none) : pascalFrom false rest = [] := by
  induction rest generalizing behind with
  | nil => rfl
  | cons c rest ih =>
      rcases ends_word_cases behind c rest with ⟨word, after, -, -, hends, -⟩ | ⟨hends, hwalk⟩
      · rw [Pattern.search_of_ends hends] at h
        simp at h
      · rw [Pattern.search_cons hends, Option.map_eq_none_iff] at h
        rw [hwalk, ih h]

/-- A name is the words that the pattern finds, each with a capital first letter. -/
theorem pascalFrom_of_finds {behind rest tail : List Char} {found : List Match}
    (h : Finds wordPattern behind rest found tail) :
    pascalFrom false rest = found.flatMap fun word => capitalised word.matched := by
  induction h with
  | none hnone => exact pascalFrom_of_search_none hnone
  | next hsearch _ ih => rw [(pascalFrom_of_search hsearch).1, ih, List.flatMap_cons]

theorem exists_finds_word (behind rest : List Char) :
    ∃ found tail, Finds wordPattern behind rest found tail := by
  induction hlen : rest.length using Nat.strongRecOn generalizing behind rest with
  | ind n ih =>
      cases hsearch : wordPattern.search behind rest with
      | none => exact ⟨[], rest, .none hsearch⟩
      | some first =>
          rcases first with ⟨before, t⟩
          have hshort := (pascalFrom_of_search hsearch).2
          rcases ih _ (hlen ▸ hshort) t.behind t.rest rfl with ⟨found, tail, hfinds⟩
          exact ⟨_, tail, .next hsearch hfinds⟩

/-! ## Styles -/

/-- A word of small letters. -/
def IsSmallWord (word : String) : Prop :=
  word ≠ "" ∧ ∀ c ∈ word.toList, c.isLower = true

/-- The words, each with a capital first letter, put together. -/
def pascalCase (words : List String) : String :=
  String.join (words.map fun word => String.ofList (capitalised word.toList))

/-- The words put together, all but the first with a capital first letter. -/
def camelCase : List String → String
  | [] => ""
  | first :: rest => first ++ pascalCase rest

theorem toList_pascalCase (words : List String) :
    (pascalCase words).toList = words.flatMap fun word => capitalised word.toList := by
  simp [pascalCase, String.toList_join, List.flatMap_map]

theorem toList_pascalCase_cons (word : String) (words : List String) :
    (pascalCase (word :: words)).toList =
      capitalised word.toList ++ (pascalCase words).toList := by
  rw [toList_pascalCase, toList_pascalCase, List.flatMap_cons]

theorem IsSmallWord.cons {word : String} (h : IsSmallWord word) :
    ∃ c run, word.toList = c :: run ∧ c.isLower = true ∧ ∀ d ∈ run, d.isLower = true := by
  cases hword : word.toList with
  | nil => exact absurd (String.toList_eq_nil_iff.mp hword) h.1
  | cons c run =>
      have hall := h.2
      rw [hword, List.forall_mem_cons] at hall
      exact ⟨c, run, rfl, hall.1, hall.2⟩

/-- A small word is a word of the name, unless more small letters follow. -/
theorem pascalFrom_smallWord {word : String} (h : IsSmallWord word) (rest : List Char)
    (hrest : ∀ d ∈ rest.head?, d.isLower = false) :
    pascalFrom false (word.toList ++ rest) =
      capitalised word.toList ++ pascalFrom false rest := by
  rcases h.cons with ⟨c, run, hword, hc, hrun⟩
  rw [hword]
  exact pascalFrom_letters (by simp [isAlpha_eq, hc]) hrun hrest

/-- A word that has its capital keeps it. -/
theorem pascalFrom_capitalised {word : String} (h : IsSmallWord word) (rest : List Char)
    (hrest : ∀ d ∈ rest.head?, d.isLower = false) :
    pascalFrom false (capitalised word.toList ++ rest) =
      capitalised word.toList ++ pascalFrom false rest := by
  rcases h.cons with ⟨c, run, hword, hc, hrun⟩
  have hsmall : ∀ d ∈ run, d.isUpper = false := fun d hd => isUpper_of_isLower (hrun d hd)
  rw [hword, capitalised_cons c hsmall,
    pascalFrom_letters (by simp [isAlpha_eq, (toUpper_of_isLower hc).1]) hrun hrest,
    capitalised_cons _ hsmall, toUpper_of_not_isLower (isLower_toUpper c)]

/-- A capital comes first in words that are put together with capitals. -/
theorem head_pascalCase {words : List String} (h : ∀ word ∈ words, IsSmallWord word) :
    ∀ d ∈ (pascalCase words).toList.head?, d.isLower = false := by
  intro d hd
  rw [toList_pascalCase] at hd
  cases words with
  | nil => simp at hd
  | cons word words =>
      rcases (h word (by simp)).cons with ⟨c, run, hword, -, -⟩
      rw [List.flatMap_cons, hword, capitalised, List.cons_append, List.head?_cons,
        Option.mem_some_iff] at hd
      rw [← hd, isLower_toUpper]

theorem pascalFrom_pascalCase {words : List String} (h : ∀ word ∈ words, IsSmallWord word) :
    pascalFrom false (pascalCase words).toList = (pascalCase words).toList := by
  induction words with
  | nil => rfl
  | cons word words ih =>
      rw [List.forall_mem_cons] at h
      rw [toList_pascalCase_cons, pascalFrom_capitalised h.1 _ (head_pascalCase h.2), ih h.2]

theorem pascal_pascalCase {words : List String} (h : ∀ word ∈ words, IsSmallWord word) :
    pascal (pascalCase words) = pascalCase words := by
  rw [pascal, pascalFrom_pascalCase h, String.ofList_toList]

theorem pascal_camelCase {words : List String} (h : ∀ word ∈ words, IsSmallWord word) :
    pascal (camelCase words) = pascalCase words := by
  cases words with
  | nil => rfl
  | cons word words =>
      rw [List.forall_mem_cons] at h
      rw [pascal, camelCase, String.toList_append,
        pascalFrom_smallWord h.1 _ (head_pascalCase h.2), pascalFrom_pascalCase h.2,
        ← toList_pascalCase_cons, String.ofList_toList]

/-- A separator of one character that names do not have ends a word and is left out. -/
theorem pascalFrom_joined (separator : Char) (hseparator : separator.isAlphanum = false)
    {words : List String} (h : ∀ word ∈ words, IsSmallWord word) :
    pascalFrom false (joined (String.singleton separator) words).toList =
      (pascalCase words).toList := by
  have hsmall : separator.isLower = false := by
    rw [isAlphanum_eq, Bool.or_eq_false_iff, Bool.or_eq_false_iff] at hseparator
    exact hseparator.1.2
  induction words with
  | nil => rfl
  | cons word words ih =>
      rw [List.forall_mem_cons] at h
      rw [toList_pascalCase_cons]
      cases words with
      | nil =>
          have hword := pascalFrom_smallWord h.1 [] (by simp)
          simpa [joined, pascalFrom, toList_pascalCase] using hword
      | cons second words =>
          have hword := pascalFrom_smallWord h.1
            (separator :: (joined (String.singleton separator) (second :: words)).toList)
            (by simpa using hsmall)
          rw [pascalFrom_other hseparator, ih h.2] at hword
          simpa [joined] using hword

theorem pascal_joined (separator : Char) (hseparator : separator.isAlphanum = false)
    {words : List String} (h : ∀ word ∈ words, IsSmallWord word) :
    pascal (joined (String.singleton separator) words) = pascalCase words := by
  rw [pascal, pascalFrom_joined separator hseparator h, String.ofList_toList]

/-! ## Any text -/

/-- A character that names have is kept, up to its case. -/
theorem pascalFrom_kept {c : Char} (hc : c.isAlphanum = true) (inWord : Bool) (rest : List Char) :
    ∃ kept after, pascalFrom inWord (c :: rest) = kept :: pascalFrom after rest ∧
      kept.isAlphanum = true ∧ kept.toLower = c.toLower := by
  rcases char_cases c with hlower | hupper | hdigit | hother
  · rcases toUpper_of_isLower hlower with ⟨hcapital, hback⟩
    refine ⟨_, true, pascalFrom_lower hlower inWord rest, ?_, ?_⟩
    · cases inWord <;> simp [isAlphanum_eq, hlower, hcapital]
    · cases inWord <;> simp [hback, toLower_of_not_isUpper (isUpper_of_isLower hlower)]
  · exact ⟨c, true, pascalFrom_upper hupper inWord rest, hc, rfl⟩
  · exact ⟨c, false, pascalFrom_digit hdigit inWord rest, hc, rfl⟩
  · rw [hother] at hc
    exact absurd hc Bool.false_ne_true

theorem isAlphanum_pascalFrom (inWord : Bool) (s : List Char) :
    ∀ c ∈ pascalFrom inWord s, c.isAlphanum = true := by
  induction s generalizing inWord with
  | nil => simp [pascalFrom]
  | cons c s ih =>
      by_cases hc : c.isAlphanum = true
      · rcases pascalFrom_kept hc inWord s with ⟨kept, after, hstep, hkept, -⟩
        rw [hstep, List.forall_mem_cons]
        exact ⟨hkept, ih after⟩
      · rw [pascalFrom_other (by simpa using hc)]
        exact ih false

/-- Only the case of letters changes, and only other characters are left out. -/
theorem toLower_pascalFrom (inWord : Bool) (s : List Char) :
    (pascalFrom inWord s).map Char.toLower = (s.filter Char.isAlphanum).map Char.toLower := by
  induction s generalizing inWord with
  | nil => rfl
  | cons c s ih =>
      by_cases hc : c.isAlphanum = true
      · rcases pascalFrom_kept hc inWord s with ⟨kept, after, hstep, -, hcase⟩
        rw [hstep, List.filter_cons_of_pos hc, List.map_cons, List.map_cons, hcase, ih]
      · rw [pascalFrom_other (by simpa using hc), List.filter_cons_of_neg hc, ih]

/-- A name does not start with a small letter. -/
theorem head_pascalFrom (s : List Char) :
    ∀ c ∈ (pascalFrom false s).head?, c.isLower = false := by
  induction s with
  | nil => simp [pascalFrom]
  | cons c s ih =>
      rcases char_cases c with hc | hc | hc | hc
      · intro d hd
        rw [pascalFrom_lower hc, List.head?_cons, Option.mem_some_iff] at hd
        exact hd ▸ isLower_toUpper c
      · simpa [pascalFrom_upper hc] using isLower_of_isUpper hc
      · simpa [pascalFrom_digit hc] using (not_letter_of_isDigit hc).1
      · rwa [pascalFrom_other hc]

/-- A name is its own name. -/
theorem pascalFrom_pascalFrom (inWord : Bool) (s : List Char) :
    pascalFrom inWord (pascalFrom inWord s) = pascalFrom inWord s := by
  induction s generalizing inWord with
  | nil => rfl
  | cons c s ih =>
      rcases char_cases c with hc | hc | hc | hc
      · -- A small letter that became a capital stays one, and it still comes before the rest.
        cases inWord with
        | true => rw [pascalFrom_lower hc, if_pos rfl, pascalFrom_lower hc, if_pos rfl, ih]
        | false =>
            rw [pascalFrom_lower hc, if_neg Bool.false_ne_true,
              pascalFrom_upper (toUpper_of_isLower hc).1, ih]
      · rw [pascalFrom_upper hc, pascalFrom_upper hc, ih]
      · rw [pascalFrom_digit hc, pascalFrom_digit hc, ih]
      · rw [pascalFrom_other hc, pascalFrom_of_head (head_pascalFrom s), ih]

/-- Words of small letters have one name, the words with capitals, whether they are joined by
    underscores, by hyphens or by capitals alone. The name of any text is the words in it with
    capitals, has only letters and digits, the same as the text up to case, and is its own
    name. -/
theorem names_follow_words :
    (∀ words : List String, (∀ word ∈ words, IsSmallWord word) →
      pascal (joined "_" words) = pascalCase words ∧
      pascal (joined "-" words) = pascalCase words ∧
      pascal (camelCase words) = pascalCase words ∧
      pascal (pascalCase words) = pascalCase words) ∧
    ∀ text : String,
      (∃ found tail, Finds wordPattern [] text.toList found tail ∧
        (pascal text).toList = found.flatMap fun word => capitalised word.matched) ∧
      (∀ c ∈ (pascal text).toList, c.isAlphanum = true) ∧
      (pascal text).toList.map Char.toLower =
        (text.toList.filter Char.isAlphanum).map Char.toLower ∧
      pascal (pascal text) = pascal text := by
  constructor
  · intro words h
    exact ⟨pascal_joined '_' (by decide) h, pascal_joined '-' (by decide) h, pascal_camelCase h,
      pascal_pascalCase h⟩
  · intro text
    have hname : (pascal text).toList = pascalFrom false text.toList := String.toList_ofList
    rcases exists_finds_word [] text.toList with ⟨found, tail, hfinds⟩
    refine ⟨⟨found, tail, hfinds, ?_⟩, ?_, ?_, ?_⟩
    · rw [hname, pascalFrom_of_finds hfinds]
    · rw [hname]
      exact isAlphanum_pascalFrom false text.toList
    · rw [hname, toLower_pascalFrom]
    · rw [pascal, hname, pascalFrom_pascalFrom, ← hname, String.ofList_toList]

/-- A single letter, and a word that ends where another starts. -/
theorem names_follow_words_styles :
    (∀ word ∈ ["a", "card", "teaser"], IsSmallWord word) ∧
      pascal "a_card_teaser" = "ACardTeaser" ∧ pascal "a-card-teaser" = "ACardTeaser" ∧
      pascal "aCardTeaser" = "ACardTeaser" ∧ pascal "ACardTeaser" = "ACardTeaser" := by
  have hwords : ∀ word ∈ ["a", "card", "teaser"], IsSmallWord word := by
    simp [IsSmallWord, isLower_iff]
  exact ⟨hwords, names_follow_words.1 _ hwords⟩

end Text

end Afx
