import Afx.Proofs.Layout
import Mathlib.Data.List.SplitBy

/-!
# The Runs of Blanks in a Text

A text is words with runs of blanks between them, and perhaps one more run at
either end. Here is what becomes of each of these parts when the layout of a text
is removed: words stay, and so do runs on one line. A run with a line feed becomes
one space between words, and nothing at an end.

Removing layout is one walk from left to right, which holds back the run that it
read last. It can be told in two steps instead, neither of which holds anything
back: first the runs at the ends are taken off if they have a line feed, and then
every run that still has one becomes a space. The two steps look at runs in
different ways, from an end and as pieces of the whole text, so what they share
with the walk is only the form of the text. That is why `Spaced` comes first: it
says which words and runs a text has, every text has them in one way, and each of
the three readings is followed along it.

## Main definitions

* `IsWord`: A word between blanks.
* `Spaced`: The words and the runs of a text.
* `edgeRun`, `innerRun`: What becomes of a run at an end, and of one between words.
* `settled`: What becomes of a text, part by part.
* `stripped`, `collapsed`: The two steps.

## Theorems

* `exists_spaced`, `Spaced.unique`: A text is made of words and runs in one way.
* `Spaced.normaliseChars_eq`: The walk settles every run by its place.
* `Spaced.stripped`, `Spaced.collapsed_eq`: What each of the steps does.
* `normalise_settles_runs`: What becomes of a text without its layout.
-/

namespace Afx

namespace Markup

/-! ## Words and runs -/

/-- A word: characters that are no blanks, at least one. -/
def IsWord (t : List Char) : Prop :=
  t ≠ [] ∧ ∀ c ∈ t, Text.isBlank c = false

/-- The text has these words, each listed with the run of blanks in front of it, and
    ends in the given run. Runs at the ends may be empty, and those between words are
    not. -/
inductive Spaced : List Char → List (List Char × List Char) → List Char → Prop where
  | last {w : List Char} (hw : Blanks w) : Spaced w [] w
  | word {w t rest last : List Char} {words : List (List Char × List Char)} (hw : Blanks w)
      (ht : IsWord t) (hgap : ∀ part ∈ words.head?, part.1 ≠ []) (h : Spaced rest words last) :
      Spaced (w ++ (t ++ rest)) ((w, t) :: words) last

theorem Spaced.blanks_last {s last : List Char} {words : List (List Char × List Char)}
    (h : Spaced s words last) : Blanks last := by
  induction h with
  | last hw => exact hw
  | word _ _ _ _ ih => exact ih

theorem IsWord.head {t : List Char} (ht : IsWord t) (s : List Char) :
    ∀ c ∈ (t ++ s).head?, Text.isBlank c = false := by
  intro c hc
  cases t with
  | nil => exact absurd rfl ht.1
  | cons d t => exact ht.2 c (by simp_all)

/-- Behind a word comes a blank, or the end of the text. -/
theorem Spaced.head {s last : List Char} {words : List (List Char × List Char)}
    (h : Spaced s words last) (hgap : ∀ part ∈ words.head?, part.1 ≠ []) :
    ∀ c ∈ s.head?, Text.isBlank c = true := by
  intro c hc
  cases h with
  | last hw => exact hw c (List.mem_of_mem_head? hc)
  | @word w t rest _ words hw ht _ _ =>
      cases w with
      | nil => exact absurd rfl (hgap _ rfl)
      | cons d w => exact hw c (by simp_all)

/-- Every text is made of words and runs. -/
theorem exists_spaced (s : List Char) : ∃ words last, Spaced s words last := by
  induction s with
  | nil => exact ⟨[], [], .last (by simp [Blanks])⟩
  | cons c s ih =>
      rcases ih with ⟨words, last, h⟩
      by_cases hc : Text.isBlank c = true
      · -- A blank makes the first run longer.
        have hlonger : ∀ {w : List Char}, Blanks w → Blanks (c :: w) := fun hw =>
          List.forall_mem_cons.mpr ⟨hc, hw⟩
        cases h with
        | last hw => exact ⟨_, _, .last (hlonger hw)⟩
        | word hw ht hgap h => exact ⟨_, _, .word (hlonger hw) ht hgap h⟩
      · have hnone : Blanks [] := by simp [Blanks]
        have hword : ∀ {t : List Char}, (∀ d ∈ t, Text.isBlank d = false) → IsWord (c :: t) :=
          fun ht => ⟨List.cons_ne_nil _ _, List.forall_mem_cons.mpr ⟨by simpa using hc, ht⟩⟩
        have hletter : IsWord [c] := hword (by simp)
        cases h with
        | last hw => exact ⟨_, _, .word hnone hletter (by simp) (.last hw)⟩
        | @word w t rest last words hw ht hgap h =>
            -- Another character joins a word that follows directly, and is one before a run.
            cases w with
            | nil => exact ⟨_, _, .word hnone (hword ht.2) hgap h⟩
            | cons d w => exact ⟨_, _, .word hnone hletter (by simp) (.word hw ht hgap h)⟩

/-- A text is made of words and runs in one way only. -/
theorem Spaced.unique {s last last' : List Char} {words words' : List (List Char × List Char)}
    (h : Spaced s words last) (h' : Spaced s words' last') : words = words' ∧ last = last' := by
  induction h generalizing words' with
  | @last w hw =>
      cases h' with
      | last => exact ⟨rfl, rfl⟩
      | @word w' t' rest' _ _ _ ht' _ _ =>
          -- A text of blanks has no word.
          have hhead := ht'.head rest'
          cases t' with
          | nil => exact absurd rfl ht'.1
          | cons c t' => simp_all [hw c (by simp)]
  | @word w t rest last words hw ht hgap h ih =>
      generalize hs : w ++ (t ++ rest) = s at h'
      cases h' with
      | last hw' =>
          subst hs
          cases t with
          | nil => exact absurd rfl ht.1
          | cons c t =>
              have hc := hw' c (by simp)
              rw [ht.2 c (by simp)] at hc
              exact absurd hc Bool.false_ne_true
      | @word w' t' rest' _ words' hw' ht' hgap' h' =>
          -- Each part ends where the class of the characters changes.
          have hrun : w = w' := by
            rw [← takeWhile_run hw (ht.head rest), hs, takeWhile_run hw' (ht'.head rest')]
          rw [hrun, List.append_cancel_left_eq] at hs
          have hends : ∀ {t s : List Char}, IsWord t → (∀ c ∈ s.head?, Text.isBlank c = true) →
              (t ++ s).takeWhile (! Text.isBlank ·) = t := fun ht hs =>
            takeWhile_run (fun c hc => by simp [ht.2 c hc]) (fun c hc => by simp [hs c hc])
          have hword : t = t' := by
            rw [← hends ht (h.head hgap), hs, hends ht' (h'.head hgap')]
          rw [hword, List.append_cancel_left_eq] at hs
          subst hs
          rcases ih h' with ⟨rfl, rfl⟩
          exact ⟨by rw [hrun, hword], rfl⟩

/-! ## What becomes of the parts -/

/-- What becomes of a run at an end of the text. -/
def edgeRun (w : List Char) : List Char :=
  if '\n' ∈ w then [] else w

/-- What becomes of a run between words. -/
def innerRun (w : List Char) : List Char :=
  if '\n' ∈ w then [' '] else w

/-- Words with what becomes of the runs in front of them. -/
def innerWords (words : List (List Char × List Char)) : List Char :=
  words.flatMap fun part => innerRun part.1 ++ part.2

/-- What becomes of a text with these words and this run at its end. -/
def settled : List (List Char × List Char) → List Char → List Char
  | [], last => edgeRun last
  | (first, word) :: words, last => edgeRun first ++ word ++ innerWords words ++ edgeRun last

theorem blanks_edgeRun {w : List Char} (hw : Blanks w) : Blanks (edgeRun w) := by
  unfold edgeRun
  split
  · simp [Blanks]
  · exact hw

/-- A run at an end has no line feed any more, so it is the same run between words. -/
theorem innerRun_edgeRun (w : List Char) : innerRun (edgeRun w) = edgeRun w := by
  unfold edgeRun
  by_cases hline : '\n' ∈ w
  · rw [if_pos hline]
    rfl
  · rw [if_neg hline, innerRun, if_neg hline]

/-! ## The walk -/

theorem settle_true_reverse (w : List Char) : settle true w.reverse = (edgeRun w).reverse := by
  by_cases hline : '\n' ∈ w <;> simp [settle, edgeRun, hline]

theorem settle_false_reverse (w : List Char) : settle false w.reverse = (innerRun w).reverse := by
  by_cases hline : '\n' ∈ w <;> simp [settle, innerRun, hline]

/-- With no run held back, characters that are no blanks are kept as they come. -/
theorem foldl_settleNext_kept {s : List Char} (hs : ∀ c ∈ s, Text.isBlank c = false)
    (kept : List Char) : s.foldl settleNext (kept, []) = (s.reverse ++ kept, []) := by
  induction s generalizing kept with
  | nil => rfl
  | cons c s ih =>
      rw [List.forall_mem_cons] at hs
      rw [List.foldl_cons, settleNext, if_neg (by simp [hs.1]),
        settle_of_not_mem List.not_mem_nil, ih hs.2]
      simp

/-- The first character of a word settles the run before it, and the others are kept. -/
theorem foldl_settleNext_word {t : List Char} (ht : IsWord t) (kept run : List Char) :
    t.foldl settleNext (kept, run) = (t.reverse ++ settle kept.isEmpty run ++ kept, []) := by
  cases t with
  | nil => exact absurd rfl ht.1
  | cons c t =>
      have hall := List.forall_mem_cons.mp ht.2
      rw [List.foldl_cons, settleNext, if_neg (by simp [hall.1]), foldl_settleNext_kept hall.2]
      simp

/-- Behind a word no run is at the front of the text any more. -/
theorem Spaced.foldl_behind {s last : List Char} {words : List (List Char × List Char)}
    (h : Spaced s words last) {kept : List Char} (hkept : kept ≠ []) :
    s.foldl settleNext (kept, []) = ((innerWords words).reverse ++ kept, last.reverse) := by
  induction h generalizing kept with
  | last hw => rw [foldl_settleNext_blanks hw, List.append_nil]; rfl
  | @word w t rest last words hw ht _ _ ih =>
      have hinside : kept.isEmpty = false := by simpa using hkept
      rw [List.foldl_append, foldl_settleNext_blanks hw, List.append_nil, List.foldl_append,
        foldl_settleNext_word ht, hinside, settle_false_reverse, ih (by simp [ht.1])]
      simp [innerWords]

/-- The walk settles every run by its place. -/
theorem Spaced.normaliseChars_eq {s last : List Char} {words : List (List Char × List Char)}
    (h : Spaced s words last) : normaliseChars s = settled words last := by
  cases h with
  | last hw =>
      simp only [normaliseChars, foldl_settleNext_blanks hw, List.append_nil,
        settle_true_reverse, List.reverse_reverse]
      rfl
  | @word w t rest _ words hw ht _ h =>
      -- Nothing is kept in front of the first word.
      have hfirst : (w ++ (t ++ rest)).foldl settleNext ([], []) =
          ((innerWords words).reverse ++ (t.reverse ++ (edgeRun w).reverse), last.reverse) := by
        rw [List.foldl_append, foldl_settleNext_blanks hw, List.append_nil, List.foldl_append,
          foldl_settleNext_word ht, List.isEmpty_nil, settle_true_reverse, List.append_nil,
          h.foldl_behind (by simp [ht.1])]
      simp only [normaliseChars, hfirst, settle_true_reverse]
      simp [settled]

/-! ## The two steps -/

/-- The text without the run in front of it, if that has a line feed. -/
def withoutLeading (s : List Char) : List Char :=
  if '\n' ∈ s.takeWhile Text.isBlank then s.dropWhile Text.isBlank else s

/-- The text without the runs at its ends that have a line feed. -/
def stripped (s : List Char) : List Char :=
  (withoutLeading (withoutLeading s).reverse).reverse

/-- The text with one space for every run of blanks that has a line feed. -/
def collapsed (s : List Char) : List Char :=
  (s.splitBy fun c d => Text.isBlank c == Text.isBlank d).flatMap innerRun

theorem withoutLeading_append {w s : List Char} (hw : Blanks w)
    (hs : ∀ c ∈ s.head?, Text.isBlank c = false) : withoutLeading (w ++ s) = edgeRun w ++ s := by
  unfold withoutLeading edgeRun
  rw [takeWhile_run hw hs, dropWhile_run hw hs]
  split <;> rfl

theorem withoutTrailing_append {w s : List Char} (hw : Blanks w)
    (hs : ∀ c ∈ s.getLast?, Text.isBlank c = false) :
    (withoutLeading (s ++ w).reverse).reverse = s ++ edgeRun w := by
  have hreverse : edgeRun w.reverse = (edgeRun w).reverse := by
    by_cases hline : '\n' ∈ w <;> simp [edgeRun, hline]
  have hwords : Blanks w.reverse := fun c hc => hw c (List.mem_reverse.mp hc)
  rw [List.reverse_append, withoutLeading_append hwords (by simpa using hs), hreverse]
  simp

/-- The run at the end can be exchanged: it stands behind a word, or is all of the text. -/
theorem Spaced.split_last {s last : List Char} {words : List (List Char × List Char)}
    (h : Spaced s words last) :
    ∃ front, s = front ++ last ∧ (∀ c ∈ front.getLast?, Text.isBlank c = false) ∧
      ∀ {w : List Char}, Blanks w → Spaced (front ++ w) words w := by
  induction h with
  | last hw => exact ⟨[], rfl, by simp, fun hw => .last hw⟩
  | @word w t rest last words hw ht hgap _ ih =>
      rcases ih with ⟨front, rfl, hfront, hothers⟩
      refine ⟨w ++ (t ++ front), by simp, ?_, ?_⟩
      · intro c hc
        rw [List.getLast?_append_of_ne_nil _ (by simp [ht.1]), List.getLast?_append] at hc
        cases hlast : front.getLast? with
        | none =>
            rw [hlast, Option.none_or] at hc
            exact ht.2 c (List.mem_of_mem_getLast? hc)
        | some d =>
            rw [hlast, Option.some_or] at hc
            exact hfront c (hlast ▸ hc)
      · intro v hv
        have hbehind := Spaced.word hw ht hgap (hothers hv)
        simpa using hbehind

/-- The first step leaves the words and the runs between them as they are. -/
theorem Spaced.stripped {s last : List Char} {words : List (List Char × List Char)}
    (h : Spaced s words last) :
    Spaced (stripped s) (words.modifyHead fun part => (edgeRun part.1, part.2)) (edgeRun last) := by
  unfold Markup.stripped
  cases h with
  | last hw =>
      -- One run is both ends of the text, and what is left of it has no line feed.
      have hfront : withoutLeading s = edgeRun s := by
        simpa using withoutLeading_append hw (s := []) (by simp)
      have hback := withoutTrailing_append (blanks_edgeRun hw) (s := []) (by simp)
      rw [List.nil_append, List.nil_append] at hback
      rw [hfront, hback]
      have htwice : edgeRun (edgeRun s) = edgeRun s := by
        by_cases hline : '\n' ∈ s <;> simp [edgeRun, hline]
      rw [htwice]
      exact .last (blanks_edgeRun hw)
  | @word w t rest _ words hw ht hgap h =>
      rw [withoutLeading_append hw (ht.head rest)]
      have hword := Spaced.word (blanks_edgeRun hw) ht hgap h
      rcases hword.split_last with ⟨front, hsplit, hfront, hothers⟩
      rw [hsplit, withoutTrailing_append h.blanks_last hfront]
      exact hothers (blanks_edgeRun h.blanks_last)

theorem collapsed_append {s t : List Char}
    (h : ∀ c ∈ s.getLast?, ∀ d ∈ t.head?, Text.isBlank c ≠ Text.isBlank d) :
    collapsed (s ++ t) = collapsed s ++ collapsed t := by
  unfold collapsed
  rw [List.splitBy_append fun c hc d hd => by simpa using h c hc d hd, List.flatMap_append]

/-- Characters of one class are one piece. -/
theorem collapsed_of_class {s : List Char} {blank : Bool} (h : ∀ c ∈ s, Text.isBlank c = blank) :
    collapsed s = innerRun s := by
  by_cases hs : s = []
  · subst hs
    rfl
  · have hchain : s.IsChain fun c d => (Text.isBlank c == Text.isBlank d) = true := by
      refine List.Pairwise.isChain (List.pairwise_iff_forall_sublist.mpr ?_)
      intro c d hcd
      have hboth := hcd.subset
      rw [h c (hboth (by simp)), h d (hboth (by simp)), beq_self_eq_true]
    unfold collapsed
    rw [List.splitBy_of_isChain hs hchain]
    simp

theorem IsWord.innerRun_eq {t : List Char} (ht : IsWord t) : innerRun t = t := by
  unfold innerRun
  rw [if_neg]
  intro hline
  exact absurd (ht.2 '\n' hline) (by decide)

/-- The second step looks at every run on its own. -/
theorem Spaced.collapsed_eq {s last : List Char} {words : List (List Char × List Char)}
    (h : Spaced s words last) : collapsed s = innerWords words ++ innerRun last := by
  induction h with
  | last hw => exact collapsed_of_class hw
  | @word w t rest last words hw ht hgap h ih =>
      have hafter : collapsed (t ++ rest) = t ++ collapsed rest := by
        rw [collapsed_append, collapsed_of_class ht.2, ht.innerRun_eq]
        intro c hc d hd
        rw [ht.2 c (List.mem_of_mem_getLast? hc), h.head hgap d hd]
        exact Bool.false_ne_true
      rw [collapsed_append, collapsed_of_class hw, hafter, ih]
      · simp [innerWords]
      · intro c hc d hd
        rw [hw c (List.mem_of_mem_getLast? hc), ht.head rest d hd]
        exact Bool.false_ne_true.symm

/-- The two steps do together what the walk does. -/
theorem Spaced.collapsed_stripped {s last : List Char} {words : List (List Char × List Char)}
    (h : Spaced s words last) : collapsed (Markup.stripped s) = settled words last := by
  rw [h.stripped.collapsed_eq, innerRun_edgeRun]
  cases words with
  | nil => rfl
  | cons part words => simp [innerWords, settled, innerRun_edgeRun]

/-- A text is made of words and runs of blanks in one way. Without its layout it has the
    same words and the runs that have no line feed. A run with a line feed is one space
    between words and nothing at an end. So what is left has no line feed, it is what the two
    steps leave, and it has no layout that could be removed again. -/
theorem normalise_settles_runs (raw : String) :
    (∃ words last, Spaced raw.toList words last ∧
      (∀ words' last', Spaced raw.toList words' last' → words' = words ∧ last' = last) ∧
      normalise raw = String.ofList (settled words last)) ∧
    '\n' ∉ (normalise raw).toList ∧
    normalise raw = String.ofList (collapsed (stripped raw.toList)) ∧
    normalise (normalise raw) = normalise raw := by
  rcases exists_spaced raw.toList with ⟨words, last, h⟩
  have hwalk : normalise raw = String.ofList (settled words last) := by
    rw [normalise, h.normaliseChars_eq]
  refine ⟨⟨words, last, h, ?_, hwalk⟩, not_mem_normalise raw, ?_, ?_⟩
  · intro words' last' h'
    exact h'.unique h
  · rw [hwalk, h.collapsed_stripped]
  · exact normalise_of_line (not_mem_normalise raw)

end Markup

end Afx
