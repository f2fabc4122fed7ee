import Afx.Fusion.Balance
import Afx.Proofs.Lexemes

/-!
# Which Braces Count

The check of a document walks through its lines and keeps a depth and a
quotation. Here the braces that it counts are described by the form of the
document instead. Outside of quotations a line that starts with a comment mark
is passed over as a whole, a quotation runs from its quote to the next equal one
that nothing protects, and every brace elsewhere counts. `Counted` lists those
braces with their lines, and `Balanced` says that they nest.

Protection crosses lines in a way of its own. A backslash protects the next
character that is no line feed, so line feeds may stand between the two, and a
document may end before the protected character comes. `Inside` and `Trailing`
are the insides of quotations that do and do not come to their end.

The check splits a document into lines first. To follow it one character at a
time, `resume` is the check from the middle of a line on and `restart` from its
start, and they call each other at line feeds.

## Main definitions

* `Brace`: A brace that counts, with its line.
* `Balanced`: Braces that nest.
* `StartsComment`: A text whose first line is a comment.
* `Inside`, `Trailing`: The inside of a quotation.
* `Counted`: The braces of a document that count.
* `tally`: The number of braces that stay open.
* `Scan.resume`, `Scan.restart`: The check from a place in a document on.

## Theorems

* `balanced_iff_tally`: Braces nest exactly if none is unmatched or stays open.
* `scan_counted`: The check keeps the tally of the braces that count.
* `exists_counted`: Every document has braces that count, perhaps none.
* `checkBraces_iff_balanced`: A document passes exactly if they nest.
-/

namespace Afx

namespace Fusion

/-! ## Braces that nest -/

/-- A brace that counts: whether it opens, and the line it stands on. -/
structure Brace where
  opens : Bool
  line : Nat

/-- Braces that nest. -/
inductive Balanced : List Brace → Prop where
  | nil : Balanced []
  | nested {first last : Brace} {inner rest : List Brace} (hfirst : first.opens = true)
      (hlast : last.opens = false) (hinner : Balanced inner) (h : Balanced rest) :
      Balanced (first :: inner ++ last :: rest)

/-- The number of braces that stay open, unless one closes that is not open. -/
def tally : Nat → List Brace → Except Imbalance Nat
  | depth, [] => .ok depth
  | depth, brace :: rest =>
    if brace.opens then tally (depth + 1) rest
    else if depth = 0 then .error (.unmatched brace.line)
    else tally (depth - 1) rest

/-- Braces that close a number of braces before them, with braces that nest in
    front of each and behind the last. -/
inductive Closing : Nat → List Brace → Prop where
  | last {braces : List Brace} (h : Balanced braces) : Closing 0 braces
  | more {depth : Nat} {brace : Brace} {braces rest : List Brace} (h : Balanced braces)
      (hclose : brace.opens = false) (hrest : Closing depth rest) :
      Closing (depth + 1) (braces ++ brace :: rest)

theorem tally_balanced {braces : List Brace} (h : Balanced braces) (depth : Nat)
    (rest : List Brace) : tally depth (braces ++ rest) = tally depth rest := by
  induction h generalizing depth rest with
  | nil => rfl
  | nested hfirst hlast _ _ ihinner ih =>
      rw [List.append_assoc, List.cons_append, List.cons_append, tally, if_pos hfirst, ihinner,
        tally, if_neg (by simp [hlast]), if_neg (by omega), Nat.add_sub_cancel, ih]

theorem closing_of_tally {braces : List Brace} {depth : Nat} (h : tally depth braces = .ok 0) :
    Closing depth braces := by
  induction braces generalizing depth with
  | nil =>
      rw [tally, Except.ok.injEq] at h
      subst h
      exact .last .nil
  | cons brace rest ih =>
      rw [tally] at h
      by_cases hopens : brace.opens = true
      · -- The brace takes what comes before its partner into one piece with it.
        rw [if_pos hopens] at h
        cases ih h with
        | @more _ partner inner behind hinner hclose hbehind =>
            cases hbehind with
            | last hrest => exact .last (.nested hopens hclose hinner hrest)
            | more hrest hclose' hmore =>
                have := Closing.more (.nested hopens hclose hinner hrest) hclose' hmore
                simpa using this
      · rw [if_neg hopens] at h
        cases depth with
        | zero => simp at h
        | succ depth =>
            rw [if_neg (by omega), Nat.add_sub_cancel] at h
            exact @Closing.more depth brace [] rest .nil (by simpa using hopens) (ih h)

theorem balanced_iff_tally (braces : List Brace) : Balanced braces ↔ tally 0 braces = .ok 0 := by
  constructor
  · intro h
    have := tally_balanced h 0 []
    rwa [List.append_nil] at this
  · intro h
    cases closing_of_tally h with
    | last h => exact h

/-! ## Braces that count -/

/-- The first line of the text is a comment: a comment mark comes first, after
    blanks that stay on the line. -/
def StartsComment (s : List Char) : Prop :=
  ∃ w rest, Markup.Blanks w ∧ '\n' ∉ w ∧ (s = w ++ '/' :: '/' :: rest ∨ s = w ++ '#' :: rest)

/-- The inside of a quotation: a backslash protects the next character that is no
    line feed. -/
inductive Inside (quote : Char) : List Char → Prop where
  | nil : Inside quote []
  | plain {c : Char} {rest : List Char} (hquote : c ≠ quote) (hslash : c ≠ '\\')
      (h : Inside quote rest) : Inside quote (c :: rest)
  | escaped {c : Char} {rest : List Char} (breaks : Nat) (hc : c ≠ '\n') (h : Inside quote rest) :
      Inside quote ('\\' :: List.replicate breaks '\n' ++ c :: rest)

/-- What may stand behind the inside of a quotation that a document does not end:
    nothing, or a backslash whose protected character never comes. -/
def Trailing (s : List Char) : Prop :=
  s = [] ∨ ∃ breaks, s = '\\' :: List.replicate breaks '\n'

/-- The braces that count in a text outside of quotations, from the given line on.
    The text is at the start of a line if it is fresh. -/
inductive Counted : (fresh : Bool) → (line : Nat) → List Char → List Brace → Prop where
  | done (line : Nat) : Counted false line [] []
  | lineFeed {line : Nat} {rest : List Char} {braces : List Brace}
      (h : Counted true (line + 1) rest braces) : Counted false line ('\n' :: rest) braces
  | opening {line : Nat} {rest : List Char} {braces : List Brace}
      (h : Counted false line rest braces) :
      Counted false line ('\x7b' :: rest) (⟨true, line⟩ :: braces)
  | closing {line : Nat} {rest : List Char} {braces : List Brace}
      (h : Counted false line rest braces) :
      Counted false line ('\x7d' :: rest) (⟨false, line⟩ :: braces)
  | plain {line : Nat} {c : Char} {rest : List Char} {braces : List Brace}
      (hc : c ∉ ['\n', '\x7b', '\x7d', '\'', '"']) (h : Counted false line rest braces) :
      Counted false line (c :: rest) braces
  | quotation {line : Nat} {quote : Char} {inside rest : List Char} {braces : List Brace}
      (hquote : quote = '\'' ∨ quote = '"') (hinside : Inside quote inside)
      (h : Counted false (line + inside.count '\n') rest braces) :
      Counted false line (quote :: inside ++ quote :: rest) braces
  | unclosed (line : Nat) {quote : Char} {inside trailing : List Char}
      (hquote : quote = '\'' ∨ quote = '"') (hinside : Inside quote inside)
      (htrailing : Trailing trailing) : Counted false line (quote :: inside ++ trailing) []
  | comment {line : Nat} {content rest : List Char} {braces : List Brace}
      (hline : '\n' ∉ content) (hcomment : StartsComment content)
      (h : Counted true (line + 1) rest braces) :
      Counted true line (content ++ '\n' :: rest) braces
  | lastComment (line : Nat) {content : List Char} (hline : '\n' ∉ content)
      (hcomment : StartsComment content) : Counted true line content []
  | ordinary {line : Nat} {s : List Char} {braces : List Brace} (hcomment : ¬ StartsComment s)
      (h : Counted false line s braces) : Counted true line s braces

/-! ## The check, one character at a time -/

namespace Scan

/-- The check from the middle of a line on. -/
def resume (line : Nat) (s : Scan) (text : List Char) : Except Imbalance Scan :=
  ((Text.cut '\n' text).1.foldlM (next line) s).bind fun after =>
    lines (line + 1) after (Text.cut '\n' text).2

/-- The check from the start of a line on. -/
def restart (line : Nat) (s : Scan) (text : List Char) : Except Imbalance Scan :=
  lines line s (Text.segments '\n' text)

theorem resume_nil (line : Nat) (s : Scan) : s.resume line [] = .ok s :=
  rfl

theorem resume_lineFeed (line : Nat) (s : Scan) (rest : List Char) :
    s.resume line ('\n' :: rest) = s.restart (line + 1) rest := by
  rw [resume, Text.cut_separator]
  rfl

theorem resume_cons (line : Nat) (s : Scan) {c : Char} (hc : c ≠ '\n') (rest : List Char) :
    s.resume line (c :: rest) = (s.next line c).bind fun after => after.resume line rest := by
  rw [resume, Text.cut_cons hc, List.foldlM_cons]
  cases s.next line c <;> rfl

theorem restart_eq (line : Nat) (s : Scan) (text : List Char) :
    s.restart line text =
      if s.quote.isNone && isComment (Text.cut '\n' text).1
      then lines (line + 1) s (Text.cut '\n' text).2 else s.resume line text := by
  rw [restart, Text.segments, lines, Scan.line]
  by_cases h : (s.quote.isNone && isComment (Text.cut '\n' text).1) = true
  · rw [if_pos h, if_pos h]
  · rw [if_neg h, if_neg h, resume]
    cases (Text.cut '\n' text).1.foldlM (next line) s <;> rfl

end Scan

/-- A blank that stays on the line does not matter to whether it is a comment. -/
theorem startsComment_blank {c : Char} (hc : Text.isBlank c = true) (hline : c ≠ '\n')
    (s : List Char) : StartsComment (c :: s) ↔ StartsComment s := by
  constructor
  · rintro ⟨w, rest, hw, hnl, hs⟩
    cases w with
    | nil =>
        -- No comment mark starts with a blank.
        rcases hs with hs | hs <;>
        · rw [List.nil_append, List.cons.injEq] at hs
          rw [hs.1] at hc
          exact absurd hc (by decide)
    | cons d w =>
        refine ⟨w, rest, fun b hb => hw b (List.mem_cons_of_mem d hb),
          fun hmem => hnl (List.mem_cons_of_mem d hmem), ?_⟩
        rcases hs with hs | hs
        · exact Or.inl (List.cons.inj hs).2
        · exact Or.inr (List.cons.inj hs).2
  · rintro ⟨w, rest, hw, hnl, hs⟩
    refine ⟨c :: w, rest, ?_, ?_, ?_⟩
    · intro b hb
      rcases List.mem_cons.mp hb with rfl | hb
      · exact hc
      · exact hw b hb
    · rw [List.mem_cons, not_or]
      exact ⟨fun h => hline h.symm, hnl⟩
    · rcases hs with rfl | rfl
      · exact Or.inl rfl
      · exact Or.inr rfl

/-- An empty line is no comment. -/
theorem not_startsComment_lineFeed (s : List Char) : ¬ StartsComment ('\n' :: s) := by
  rintro ⟨w, rest, -, hnl, hs⟩
  cases w with
  | nil => simp at hs
  | cons d w =>
      have hd : d = '\n' := by
        rcases hs with hs | hs <;> exact (List.cons.inj hs).1.symm
      exact hnl (by simp [hd])

/-- On a line that does not start with a blank, the mark comes directly. -/
theorem startsComment_direct {c : Char} (hc : Text.isBlank c = false) (s : List Char) :
    StartsComment (c :: s) ↔ (c = '/' ∧ s.head? = some '/') ∨ c = '#' := by
  constructor
  · rintro ⟨w, rest, hw, hnl, hs⟩
    cases w with
    | nil =>
        rcases hs with hs | hs
        · rw [List.nil_append, List.cons.injEq] at hs
          exact Or.inl ⟨hs.1, by rw [hs.2]; rfl⟩
        · rw [List.nil_append, List.cons.injEq] at hs
          exact Or.inr hs.1
    | cons d w =>
        have hd : d = c := by
          rcases hs with hs | hs <;> exact (List.cons.inj hs).1.symm
        have := hw d (by simp)
        rw [hd, hc] at this
        exact absurd this (by simp)
  · rintro (⟨rfl, hhead⟩ | rfl)
    · rcases List.head?_eq_some_iff.mp hhead with ⟨rest, rfl⟩
      exact ⟨[], rest, by simp [Markup.Blanks], by simp, Or.inl rfl⟩
    · exact ⟨[], s, by simp [Markup.Blanks], by simp, Or.inr rfl⟩

theorem head?_cut (s : List Char) (c : Char) (hc : c ≠ '\n') :
    (Text.cut '\n' s).1.head? = some c ↔ s.head? = some c := by
  cases s with
  | nil => simp [Text.cut]
  | cons d s =>
      by_cases hd : d = '\n'
      · subst hd
        rw [Text.cut_separator]
        simpa using fun h : '\n' = c => hc h.symm
      · rw [Text.cut_cons hd]
        simp

/-- A line is a comment exactly if a comment mark comes first on it. -/
theorem isComment_iff_startsComment (s : List Char) :
    Scan.isComment (Text.cut '\n' s).1 = true ↔ StartsComment s := by
  induction s with
  | nil =>
      simp [Text.cut, Scan.isComment, StartsComment, Text.skipBlank]
  | cons c s ih =>
      -- Each kind of first character has its own lemma about the mark.
      by_cases hline : c = '\n'
      · -- An empty line is no comment, and its line feed is no part of it.
        subst hline
        rw [Text.cut_separator]
        simp [Scan.isComment, Text.skipBlank, not_startsComment_lineFeed]
      · rw [Text.cut_cons hline]
        by_cases hc : Text.isBlank c = true
        · rw [startsComment_blank hc hline, ← ih]
          simp [Scan.isComment, Text.skipBlank, hc]
        · have hc' : Text.isBlank c = false := by simpa using hc
          rw [startsComment_direct hc', ← head?_cut s '/' (by decide)]
          cases (Text.cut '\n' s).1 with
          | nil => simp [Scan.isComment, Text.skipBlank, hc', @eq_comm _ '#']
          | cons d first =>
              simp [Scan.isComment, Text.skipBlank, hc', @eq_comm _ '#', @eq_comm _ '/']

instance (s : List Char) : Decidable (StartsComment s) :=
  decidable_of_iff _ (isComment_iff_startsComment s)

namespace Scan

/-- Inside of a quotation no line is a comment. -/
theorem restart_quoted (line depth : Nat) (quote : Char) (protect : Bool) (text : List Char) :
    restart line ⟨depth, some quote, protect⟩ text =
      resume line ⟨depth, some quote, protect⟩ text := by
  rw [restart_eq]
  simp

theorem restart_ordinary (line depth : Nat) {text : List Char} (h : ¬ StartsComment text) :
    restart line ⟨depth, none, false⟩ text = resume line ⟨depth, none, false⟩ text := by
  rw [restart_eq, if_neg]
  rw [Bool.and_eq_true, isComment_iff_startsComment]
  exact fun hboth => h hboth.2

theorem restart_comment (line depth : Nat) {content : List Char} (hline : '\n' ∉ content)
    (h : StartsComment content) (rest : List Char) :
    restart line ⟨depth, none, false⟩ (content ++ '\n' :: rest) =
      restart (line + 1) ⟨depth, none, false⟩ rest := by
  rw [← isComment_iff_startsComment, Text.cut_of_not_mem hline] at h
  rw [restart_eq, Text.cut_append, Text.cut_of_not_mem hline, if_pos (by simpa using h)]
  rfl

theorem restart_lastComment (line depth : Nat) {content : List Char} (hline : '\n' ∉ content)
    (h : StartsComment content) :
    restart line ⟨depth, none, false⟩ content = .ok ⟨depth, none, false⟩ := by
  rw [← isComment_iff_startsComment, Text.cut_of_not_mem hline] at h
  rw [restart_eq, Text.cut_of_not_mem hline, if_pos (by simpa using h)]
  rfl

/-- Line feeds do not use protection up. -/
theorem resume_breaks (line depth : Nat) (quote : Char) (protect : Bool) (breaks : Nat)
    (rest : List Char) :
    resume line ⟨depth, some quote, protect⟩ (List.replicate breaks '\n' ++ rest) =
      resume (line + breaks) ⟨depth, some quote, protect⟩ rest := by
  induction breaks generalizing line with
  | zero => rfl
  | succ breaks ih =>
      rw [List.replicate_succ, List.cons_append, resume_lineFeed, restart_quoted, ih,
        Nat.add_assoc, Nat.add_comm 1]

theorem resume_slash (line depth : Nat) (quote : Char) (rest : List Char) :
    resume line ⟨depth, some quote, false⟩ ('\\' :: rest) =
      resume line ⟨depth, some quote, true⟩ rest := by
  rw [resume_cons _ _ (by decide)]
  rfl

/-- What neither ends nor protects leaves a quotation as it is, line feeds included. -/
theorem resume_quoted_plain {quote c : Char} (hquote : c ≠ quote) (hslash : c ≠ '\\')
    (line depth : Nat) (rest : List Char) :
    resume line ⟨depth, some quote, false⟩ (c :: rest) =
      resume (line + [c].count '\n') ⟨depth, some quote, false⟩ rest := by
  by_cases hc : c = '\n'
  · subst hc
    rw [resume_lineFeed, restart_quoted, List.count_singleton_self]
  · have hnext : next line ⟨depth, some quote, false⟩ c = .ok ⟨depth, some quote, false⟩ := by
      simp [next, hquote, hslash]
    rw [resume_cons _ _ hc, hnext, List.count_singleton, if_neg (by simpa using hc)]
    rfl

theorem resume_protected {c : Char} (hc : c ≠ '\n') (line depth : Nat) (quote : Char)
    (rest : List Char) :
    resume line ⟨depth, some quote, true⟩ (c :: rest) =
      resume line ⟨depth, some quote, false⟩ rest := by
  rw [resume_cons _ _ hc]
  rfl

theorem resume_inside {quote : Char} {inside : List Char} (h : Inside quote inside)
    (line depth : Nat) (rest : List Char) :
    resume line ⟨depth, some quote, false⟩ (inside ++ rest) =
      resume (line + inside.count '\n') ⟨depth, some quote, false⟩ rest := by
  induction h generalizing line with
  | nil => rfl
  | @plain c inside hquote hslash _ ih =>
      rw [List.cons_append, resume_quoted_plain hquote hslash, ih, Nat.add_assoc,
        ← List.count_append, List.singleton_append]
  | @escaped c inside breaks hc _ ih =>
      have hcount : ('\\' :: List.replicate breaks '\n' ++ c :: inside).count '\n' =
          breaks + inside.count '\n' := by
        simp [List.count_cons_of_ne, hc]
      rw [List.append_assoc, List.cons_append, resume_slash, resume_breaks, List.cons_append,
        resume_protected hc, ih, hcount, Nat.add_assoc]

theorem resume_trailing {trailing : List Char} (h : Trailing trailing) (line depth : Nat)
    (quote : Char) :
    ∃ protect,
      resume line ⟨depth, some quote, false⟩ trailing = .ok ⟨depth, some quote, protect⟩ := by
  rcases h with rfl | ⟨breaks, rfl⟩
  · exact ⟨false, rfl⟩
  · refine ⟨true, ?_⟩
    rw [resume_slash, ← List.append_nil (List.replicate breaks '\n'), resume_breaks]
    rfl

theorem resume_open (line depth : Nat) (rest : List Char) :
    resume line ⟨depth, none, false⟩ ('\x7b' :: rest) =
      resume line ⟨depth + 1, none, false⟩ rest := by
  rw [resume_cons _ _ (by decide)]
  rfl

theorem resume_close (line depth : Nat) (rest : List Char) :
    resume line ⟨depth + 1, none, false⟩ ('\x7d' :: rest) =
      resume line ⟨depth, none, false⟩ rest := by
  rw [resume_cons _ _ (by decide)]
  rfl

theorem resume_plain {c : Char} (hc : c ∉ ['\n', '\x7b', '\x7d', '\'', '"']) (line depth : Nat)
    (rest : List Char) :
    resume line ⟨depth, none, false⟩ (c :: rest) = resume line ⟨depth, none, false⟩ rest := by
  simp only [List.mem_cons, List.not_mem_nil, or_false, not_or] at hc
  have hnext : next line ⟨depth, none, false⟩ c = .ok ⟨depth, none, false⟩ := by
    simp [next, hc]
  rw [resume_cons _ _ hc.1, hnext]
  rfl

theorem resume_quote {quote : Char} (h : quote = '\'' ∨ quote = '"') (line depth : Nat)
    (rest : List Char) :
    resume line ⟨depth, none, false⟩ (quote :: rest) =
      resume line ⟨depth, some quote, false⟩ rest := by
  rcases h with rfl | rfl <;>
  · rw [resume_cons _ _ (by decide)]
    rfl

theorem resume_unquote {quote : Char} (h : quote = '\'' ∨ quote = '"') (line depth : Nat)
    (rest : List Char) :
    resume line ⟨depth, some quote, false⟩ (quote :: rest) =
      resume line ⟨depth, none, false⟩ rest := by
  rcases h with rfl | rfl <;>
  · rw [resume_cons _ _ (by decide)]
    rfl

end Scan

/-- The check keeps the tally of the braces that count. -/
theorem scan_counted {fresh : Bool} {line : Nat} {text : List Char} {braces : List Brace}
    (h : Counted fresh line text braces) (depth : Nat) :
    ∃ quote protect, (if fresh then Scan.restart line ⟨depth, none, false⟩ text
        else Scan.resume line ⟨depth, none, false⟩ text) =
      (tally depth braces).map fun left => ⟨left, quote, protect⟩ := by
  induction h generalizing depth with
  | done line => exact ⟨none, false, rfl⟩
  | @lineFeed line rest braces _ ih =>
      rcases ih depth with ⟨quote, protect, hscan⟩
      refine ⟨quote, protect, ?_⟩
      rw [if_neg Bool.false_ne_true, Scan.resume_lineFeed, ← hscan, if_pos rfl]
  | @opening line rest braces _ ih =>
      rcases ih (depth + 1) with ⟨quote, protect, hscan⟩
      refine ⟨quote, protect, ?_⟩
      rw [if_neg Bool.false_ne_true] at hscan ⊢
      rw [Scan.resume_open, tally, if_pos rfl, hscan]
  | @closing line rest braces _ ih =>
      cases depth with
      | zero =>
          -- Nothing is open, and both stop at this brace with its line.
          refine ⟨none, false, ?_⟩
          rw [if_neg Bool.false_ne_true, Scan.resume_cons _ _ (by decide)]
          rfl
      | succ depth =>
          rcases ih depth with ⟨quote, protect, hscan⟩
          refine ⟨quote, protect, ?_⟩
          rw [if_neg Bool.false_ne_true] at hscan ⊢
          rw [Scan.resume_close, tally, if_neg Bool.false_ne_true, if_neg (by omega),
            Nat.add_sub_cancel, hscan]
  | @plain line c rest braces hc _ ih =>
      rcases ih depth with ⟨quote, protect, hscan⟩
      refine ⟨quote, protect, ?_⟩
      rw [if_neg Bool.false_ne_true] at hscan ⊢
      rw [Scan.resume_plain hc, hscan]
  | @quotation line quote inside rest braces hquote hinside _ ih =>
      rcases ih depth with ⟨quote', protect, hscan⟩
      refine ⟨quote', protect, ?_⟩
      rw [if_neg Bool.false_ne_true] at hscan ⊢
      rw [List.cons_append, Scan.resume_quote hquote, Scan.resume_inside hinside,
        Scan.resume_unquote hquote, hscan]
  | @unclosed line quote inside trailing hquote hinside htrailing =>
      -- The document ends in the quotation, so no brace counts any more.
      rcases Scan.resume_trailing htrailing (line + inside.count '\n') depth quote with
        ⟨protect, hscan⟩
      refine ⟨some quote, protect, ?_⟩
      rw [if_neg Bool.false_ne_true, List.cons_append, Scan.resume_quote hquote,
        Scan.resume_inside hinside, hscan]
      rfl
  | @comment line content rest braces hline hcomment _ ih =>
      rcases ih depth with ⟨quote, protect, hscan⟩
      refine ⟨quote, protect, ?_⟩
      rw [if_pos rfl] at hscan ⊢
      rw [Scan.restart_comment line depth hline hcomment, hscan]
  | @lastComment line content hline hcomment =>
      refine ⟨none, false, ?_⟩
      rw [if_pos rfl, Scan.restart_lastComment line depth hline hcomment]
      rfl
  | @ordinary line s braces hcomment _ ih =>
      rcases ih depth with ⟨quote, protect, hscan⟩
      refine ⟨quote, protect, ?_⟩
      rw [if_neg Bool.false_ne_true] at hscan
      rw [if_pos rfl, Scan.restart_ordinary line depth hcomment, hscan]

/-! ## Every document has braces that count -/

/-- A text is line feeds only, or line feeds and then another character. -/
theorem breaks_split (s : List Char) :
    ∃ breaks, s = List.replicate breaks '\n' ∨
      ∃ c rest, c ≠ '\n' ∧ s = List.replicate breaks '\n' ++ c :: rest := by
  induction s with
  | nil => exact ⟨0, Or.inl rfl⟩
  | cons c s ih =>
      by_cases hc : c = '\n'
      · subst hc
        rcases ih with ⟨breaks, hs | ⟨c, rest, hc, hs⟩⟩
        · exact ⟨breaks + 1, Or.inl (by rw [hs, List.replicate_succ])⟩
        · refine ⟨breaks + 1, Or.inr ⟨c, rest, hc, ?_⟩⟩
          rw [hs, List.replicate_succ, List.cons_append]
      · exact ⟨0, Or.inr ⟨c, s, hc, rfl⟩⟩

/-- A quotation comes to its end or runs to the end of the document. -/
theorem inside_split (quote : Char) (text : List Char) :
    (∃ inside rest, Inside quote inside ∧ text = inside ++ quote :: rest) ∨
      ∃ inside trailing, Inside quote inside ∧ Trailing trailing ∧ text = inside ++ trailing := by
  induction hlen : text.length using Nat.strongRecOn generalizing text with
  | ind n ih =>
      cases text with
      | nil => exact Or.inr ⟨[], [], .nil, Or.inl rfl, rfl⟩
      | cons c rest =>
          rw [List.length_cons] at hlen
          by_cases hc : c = quote
          · exact Or.inl ⟨[], rest, .nil, by rw [hc]; rfl⟩
          · by_cases hslash : c = '\\'
            · subst hslash
              rcases breaks_split rest with ⟨breaks, hrest | ⟨d, behind, hd, hrest⟩⟩
              · -- Only line feeds follow, and the document ends before what is protected.
                exact Or.inr ⟨[], '\\' :: rest, .nil, Or.inr ⟨breaks, by rw [hrest]⟩, rfl⟩
              · -- The protected character is the first behind the line feeds.
                have hshort : behind.length < n := by
                  rw [← hlen, hrest, List.length_append, List.length_cons]
                  omega
                rcases ih _ hshort behind rfl with
                  ⟨inside, after, hinside, hbehind⟩ |
                  ⟨inside, trailing, hinside, htrailing, hbehind⟩
                · exact Or.inl ⟨_, after, .escaped breaks hd hinside, by simp [hrest, hbehind]⟩
                · exact Or.inr ⟨_, trailing, .escaped breaks hd hinside, htrailing,
                    by simp [hrest, hbehind]⟩
            · rcases ih _ (by omega) rest rfl with
                ⟨inside, after, hinside, hrest⟩ | ⟨inside, trailing, hinside, htrailing, hrest⟩
              · exact Or.inl ⟨c :: inside, after, .plain hc hslash hinside, by rw [hrest]; rfl⟩
              · exact Or.inr ⟨c :: inside, trailing, .plain hc hslash hinside, htrailing,
                  by rw [hrest]; rfl⟩

/-- The first line of a text, and what follows it. -/
theorem line_split (s : List Char) :
    '\n' ∉ s ∨ ∃ content rest, '\n' ∉ content ∧ s = content ++ '\n' :: rest := by
  by_cases h : '\n' ∈ s
  · rcases List.eq_append_cons_of_mem h with ⟨content, rest, hs, hline⟩
    exact Or.inr ⟨content, rest, hline, hs⟩
  · exact Or.inl h

/-- Whether a line is a comment does not depend on the lines behind it. -/
theorem startsComment_line (content rest : List Char) :
    StartsComment (content ++ '\n' :: rest) ↔ StartsComment content := by
  rw [← isComment_iff_startsComment, Text.cut_append, ← isComment_iff_startsComment content]

theorem exists_counted (fresh : Bool) (line : Nat) (text : List Char) :
    ∃ braces, Counted fresh line text braces := by
  induction hlen : text.length using Nat.strongRecOn generalizing fresh line text with
  | ind n ih =>
      -- The middle of a line first: the start of a line that is no comment is like it.
      have hmiddle : ∃ braces, Counted false line text braces := by
        cases text with
        | nil => exact ⟨[], .done line⟩
        | cons c rest =>
            rw [List.length_cons] at hlen
            by_cases hline : c = '\n'
            · subst hline
              rcases ih _ (by omega) true (line + 1) rest rfl with ⟨braces, hrest⟩
              exact ⟨braces, .lineFeed hrest⟩
            · by_cases hquote : c = '\'' ∨ c = '"'
              · rcases inside_split c rest with
                  ⟨inside, behind, hinside, hrest⟩ | ⟨inside, trailing, hinside, htrailing, hrest⟩
                · have hshort : behind.length < n := by
                    rw [← hlen, hrest, List.length_append, List.length_cons]
                    omega
                  rcases ih _ hshort false (line + inside.count '\n') behind rfl with
                    ⟨braces, hbehind⟩
                  exact ⟨braces, by rw [hrest]; exact .quotation hquote hinside hbehind⟩
                · exact ⟨[], by rw [hrest]; exact .unclosed line hquote hinside htrailing⟩
              · rcases ih _ (by omega) false line rest rfl with ⟨braces, hrest⟩
                by_cases hopen : c = '\x7b'
                · subst hopen
                  exact ⟨_, .opening hrest⟩
                · by_cases hclose : c = '\x7d'
                  · subst hclose
                    exact ⟨_, .closing hrest⟩
                  · rw [not_or] at hquote
                    exact ⟨braces, .plain (by simp [hline, hopen, hclose, hquote]) hrest⟩
      cases fresh with
      | false => exact hmiddle
      | true =>
          by_cases hcomment : StartsComment text
          · -- A comment goes to the end of its line, or of the document on the last one.
            rcases line_split text with hline | ⟨content, rest, hline, hs⟩
            · exact ⟨[], .lastComment line hline hcomment⟩
            · rw [hs] at hcomment
              have hshort : rest.length < n := by
                rw [← hlen, hs, List.length_append, List.length_cons]
                omega
              rcases ih _ hshort true (line + 1) rest rfl with ⟨braces, hrest⟩
              have hcontent := (startsComment_line content rest).mp hcomment
              exact ⟨braces, by rw [hs]; exact .comment hline hcontent hrest⟩
          · rcases hmiddle with ⟨braces, h⟩
            exact ⟨braces, .ordinary hcomment h⟩

/-- A document passes the check exactly if the braces that count in it nest. -/
theorem checkBraces_iff_balanced (document : String) :
    checkBraces document = .ok () ↔
      ∃ braces, Counted true 1 document.toList braces ∧ Balanced braces := by
  -- Whatever braces are said to count, the check keeps their tally.
  have hcheck : ∀ braces, Counted true 1 document.toList braces →
      (checkBraces document = .ok () ↔ Balanced braces) := by
    intro braces hcounted
    rcases scan_counted hcounted 0 with ⟨quote, protect, hscan⟩
    rw [if_pos rfl, Scan.restart] at hscan
    rw [balanced_iff_tally, checkBraces, hscan]
    cases tally 0 braces with
    | error imbalance => simp [Except.map]
    | ok left => by_cases hleft : left = 0 <;> simp [Except.map, hleft]
  constructor
  · intro h
    rcases exists_counted true 1 document.toList with ⟨braces, hcounted⟩
    exact ⟨braces, hcounted, (hcheck braces hcounted).mp h⟩
  · rintro ⟨braces, hcounted, hbalanced⟩
    exact (hcheck braces hcounted).mpr hbalanced

end Fusion

end Afx
