import Afx.Fusion.Conversion
import Afx.Proofs.Totality

/-!
# Generated Fusion Passes the Check

Of what is generated from markup, only code can upset the check of its braces.
Texts stand in quotations that nothing inside of them ends. Names and margins
hold neither braces nor quotes, and a line that starts with them is no comment.
The braces of objects come in pairs, each on the line of its own object. Code is
copied as it is, so what the check makes of it is a matter of the code itself.

Code is `Neutral` if the check accepts an assignment of it and is not left in a
quotation. That is said of the code alone, at the start of a document. In a
document the same code stands deeper and on a later line, and `resume_above`
carries the result over: the check does not look at the braces that are already
open unless one is missing. But the last line of neutral code may be a comment
that hides the closing mark, and a comment ends with its line. So code passes in
front of a line feed, which every layout puts behind it.

## Main definitions

* `Spelled`: A text of name characters, perhaps of none.
* `Neutral`: Code that the check accepts and leaves outside of quotations.
* `Scan.Above`: Two states of the check, one with more braces open.
* `Unmarked`, `Worded`: Texts without marks, and texts that cannot start a comment.
* `Passes`, `PassesLines`: A text that the check comes out of as it came to it.

## Theorems

* `Scan.resume_split`: The check, taken up again behind a line feed.
* `Scan.resume_above`: The check with more braces open.
* `passes_code`: Neutral code passes anywhere in a document.
* `passes_layout`: The layout of a value passes if its code does.
* `checkBraces_generate`: Generated documents are accepted.
-/

namespace Afx

namespace Fusion

open Markup

/-- A text of name characters, perhaps of none. -/
def Spelled (name : String) : Prop :=
  ∀ c ∈ name.toList, isNameChar c = true

instance (name : String) : Decidable (Spelled name) :=
  decidable_of_iff (name.toList.all isNameChar = true) (by simp [Spelled])

/-- Code that the check accepts in an assignment and that leaves it outside of
    quotations. -/
def Neutral (code : String) : Prop :=
  checkBraces ("x = " ++ quotedCode code) = .ok () ∧
    (Scan.restart 1 {} ("x = " ++ quotedCode code).toList).map Scan.quote = .ok none

/-! ## The check, taken up again -/

namespace Scan

theorem lines_append (number : Nat) (s : Scan) (first second : List (List Char)) :
    lines number s (first ++ second) =
      (lines number s first).bind fun after => lines (number + first.length) after second := by
  induction first generalizing number s with
  | nil => rfl
  | cons content rest ih =>
      rw [List.cons_append, lines, lines]
      cases s.line number content with
      | error imbalance => rfl
      | ok after =>
          have hnumber : number + (content :: rest).length = number + 1 + rest.length := by
            rw [List.length_cons]
            omega
          rw [hnumber]
          exact ih (number + 1) after

/-- What comes before a line feed is checked first, and then what comes behind it, from
    some later line on. -/
theorem resume_split (line : Nat) (s : Scan) (text rest : List Char) :
    ∃ later, s.resume line (text ++ '\n' :: rest) =
      (s.resume line text).bind fun after => after.restart later rest := by
  refine ⟨line + 1 + (Text.cut '\n' text).2.length, ?_⟩
  rw [resume, resume, Text.cut_append]
  cases (Text.cut '\n' text).1.foldlM (next line) s with
  | error imbalance => rfl
  | ok after => exact lines_append (line + 1) after _ _

/-- A state of the check, and the same with so many more braces open. Protection is
    a matter of quotations only. -/
structure Above (more : Nat) (s t : Scan) : Prop where
  same : t = ⟨s.depth + more, s.quote, s.protect⟩
  settled : s.quote = none → s.protect = false

theorem next_above {more line : Nat} {s t after : Scan} {c : Char} (h : Above more s t)
    (hnext : s.next line c = .ok after) (line' : Nat) :
    ∃ above, t.next line' c = .ok above ∧ Above more after above := by
  rcases s with ⟨depth, quote, protect⟩
  rcases h with ⟨rfl, hsettled⟩
  cases quote with
  | some quote =>
      -- In a quotation no brace counts.
      unfold next at hnext ⊢
      cases protect with
      | true =>
          rw [← Except.ok.inj hnext]
          exact ⟨_, rfl, rfl, by simp⟩
      | false =>
          by_cases hslash : (c == '\\') = true
          · simp only [hslash, if_true, if_false, Bool.false_eq_true] at hnext ⊢
            rw [← Except.ok.inj hnext]
            exact ⟨_, rfl, rfl, by simp⟩
          · by_cases hquote : (c == quote) = true
            · simp only [hslash, hquote, if_true, if_false, Bool.false_eq_true] at hnext ⊢
              rw [← Except.ok.inj hnext]
              exact ⟨_, rfl, rfl, fun _ => rfl⟩
            · simp only [hslash, hquote, if_false, Bool.false_eq_true] at hnext ⊢
              rw [← Except.ok.inj hnext]
              exact ⟨_, rfl, rfl, by simp⟩
  | none =>
      -- Outside of quotations nothing is protected, so the character counts as it is.
      have hprotect : protect = false := hsettled rfl
      subst hprotect
      unfold next at hnext ⊢
      by_cases hquote : (c == '\'' || c == '"') = true
      · simp only [hquote, if_true] at hnext ⊢
        rw [← Except.ok.inj hnext]
        exact ⟨_, rfl, rfl, by simp⟩
      · by_cases hopen : (c == '\x7b') = true
        · simp only [hquote, hopen, if_true, if_false, Bool.false_eq_true] at hnext ⊢
          rw [← Except.ok.inj hnext]
          refine ⟨_, rfl, ?_, fun _ => rfl⟩
          simp only [Scan.mk.injEq, and_true]
          omega
        · by_cases hclose : (c == '\x7d') = true
          · -- A brace that closes one of the lower state closes the same one here.
            simp only [hquote, hopen, hclose, if_true, if_false, Bool.false_eq_true] at hnext ⊢
            by_cases hdepth : depth = 0
            · simp [hdepth] at hnext
            · rw [if_neg hdepth, Except.ok.injEq] at hnext
              rw [if_neg (by omega), ← hnext]
              refine ⟨_, rfl, ?_, fun _ => rfl⟩
              simp only [Scan.mk.injEq, and_true]
              omega
          · simp only [hquote, hopen, hclose, if_false, Bool.false_eq_true] at hnext ⊢
            rw [← Except.ok.inj hnext]
            exact ⟨_, rfl, rfl, fun _ => rfl⟩

theorem foldlM_above {more line : Nat} {s t after : Scan} {content : List Char}
    (h : Above more s t) (hscan : content.foldlM (next line) s = .ok after) (line' : Nat) :
    ∃ above, content.foldlM (next line') t = .ok above ∧ Above more after above := by
  induction content generalizing s t with
  | nil =>
      rw [← Except.ok.inj hscan]
      exact ⟨t, rfl, h⟩
  | cons c content ih =>
      rw [List.foldlM_cons] at hscan
      rcases bind_eq_ok hscan with ⟨between, hnext, hscan⟩
      rcases next_above h hnext line' with ⟨above, habove, hbetween⟩
      rw [List.foldlM_cons, habove]
      exact ih hbetween hscan

theorem lines_above {more line : Nat} {s t after : Scan} {contents : List (List Char)}
    (h : Above more s t) (hscan : lines line s contents = .ok after) (line' : Nat) :
    ∃ above, lines line' t contents = .ok above ∧ Above more after above := by
  induction contents generalizing s t line line' with
  | nil =>
      rw [← Except.ok.inj hscan]
      exact ⟨t, rfl, h⟩
  | cons content rest ih =>
      -- Whether a line is a comment depends on the quotation, which is the same in both.
      have hquote : t.quote = s.quote := by rw [h.same]
      rw [lines] at hscan ⊢
      rw [Scan.line, hquote]
      rw [Scan.line] at hscan
      by_cases hcomment : (s.quote.isNone && isComment content) = true
      · rw [if_pos hcomment] at hscan ⊢
        exact ih h hscan (line' + 1)
      · rw [if_neg hcomment] at hscan ⊢
        cases hfirst : content.foldlM (next line) s with
        | error imbalance =>
            rw [hfirst] at hscan
            simp at hscan
        | ok between =>
            rw [hfirst] at hscan
            rcases foldlM_above h hfirst line' with ⟨above, habove, hbetween⟩
            rw [habove]
            exact ih hbetween hscan (line' + 1)

/-- The check comes to the same end with more braces open, from any line on. -/
theorem resume_above {more line : Nat} {s t after : Scan} {text : List Char} (h : Above more s t)
    (hscan : s.resume line text = .ok after) (line' : Nat) :
    ∃ above, t.resume line' text = .ok above ∧ Above more after above := by
  rw [resume] at hscan ⊢
  cases hfirst : (Text.cut '\n' text).1.foldlM (next line) s with
  | error imbalance =>
      rw [hfirst] at hscan
      simp [Except.bind] at hscan
  | ok between =>
      rw [hfirst] at hscan
      rcases foldlM_above h hfirst line' with ⟨above, habove, hbetween⟩
      rw [habove]
      exact lines_above hbetween hscan (line' + 1)

end Scan

/-! ## Texts without marks -/

/-- A text with neither braces nor quotes on one line. -/
def Unmarked (w : List Char) : Prop :=
  ∀ c ∈ w, c ∉ ['\n', '\x7b', '\x7d', '\'', '"']

instance (w : List Char) : Decidable (Unmarked w) :=
  decidable_of_iff (w.all (fun c => c ∉ ['\n', '\x7b', '\x7d', '\'', '"']) = true)
    (by simp [Unmarked])

theorem unmarked_append {w w' : List Char} (h : Unmarked w) (h' : Unmarked w') :
    Unmarked (w ++ w') := by
  intro c hc
  rcases List.mem_append.mp hc with hc | hc
  · exact h c hc
  · exact h' c hc

/-- No character of a class without marks is a mark. -/
theorem unmarked_of_class {accepts : Char → Bool}
    (hmarks : ['\n', '\x7b', '\x7d', '\'', '"'].all (fun c => !accepts c) = true) {w : List Char}
    (h : ∀ c ∈ w, accepts c = true) : Unmarked w := by
  intro c hc hmark
  have hnot := List.all_eq_true.mp hmarks c hmark
  rw [h c hc] at hnot
  exact absurd hnot (by decide)

theorem unmarked_margin {w : List Char} (h : Margin w) : Unmarked w :=
  unmarked_of_class (by decide) h

theorem unmarked_spelled {name : String} (h : Spelled name) : Unmarked name.toList :=
  unmarked_of_class (by decide) h

theorem Scan.resume_unmarked {w : List Char} (h : Unmarked w) (line depth : Nat)
    (rest : List Char) :
    Scan.resume line ⟨depth, none, false⟩ (w ++ rest) =
      Scan.resume line ⟨depth, none, false⟩ rest := by
  induction w with
  | nil => rfl
  | cons c w ih =>
      have hrest : Unmarked w := fun d hd => h d (List.mem_cons_of_mem _ hd)
      rw [List.cons_append, Scan.resume_plain (h c (by simp)), ih hrest]

/-- A text of margin and name characters. -/
def Worded (w : List Char) : Prop :=
  ∀ c ∈ w, isMarginChar c = true ∨ isNameChar c = true

instance (w : List Char) : Decidable (Worded w) :=
  decidable_of_iff (w.all (fun c => isMarginChar c || isNameChar c) = true) (by simp [Worded])

theorem worded_margin {w : List Char} (h : Margin w) : Worded w :=
  fun c hc => Or.inl (h c hc)

theorem worded_spelled {name : String} (h : Spelled name) : Worded name.toList :=
  fun c hc => Or.inr (h c hc)

theorem worded_append {w w' : List Char} (h : Worded w) (h' : Worded w') : Worded (w ++ w') := by
  intro c hc
  rcases List.mem_append.mp hc with hc | hc
  · exact h c hc
  · exact h' c hc

/-- Margins and names do not start a comment, nor does what stands behind them. -/
theorem not_startsComment_behind {w : List Char} (hw : Worded w) {c : Char}
    (hblank : Text.isBlank c = false) (hslash : c ≠ '/') (hhash : c ≠ '#') (rest : List Char) :
    ¬ StartsComment (w ++ c :: rest) := by
  induction w with
  | nil =>
      rw [List.nil_append, startsComment_direct hblank]
      rintro (⟨hc, -⟩ | hc)
      · exact hslash hc
      · exact hhash hc
  | cons d w ih =>
      have hrest := ih fun e he => hw e (List.mem_cons_of_mem _ he)
      rw [List.cons_append]
      rcases hw d (by simp) with hd | hd
      · have hchar : d = ' ' ∨ d = '\t' := by simpa [isMarginChar] using hd
        rcases hchar with rfl | rfl
        · rwa [startsComment_blank (by decide) (by decide)]
        · rwa [startsComment_blank (by decide) (by decide)]
      · rw [startsComment_direct (isBlank_of_isNameChar d hd)]
        rintro (⟨rfl, -⟩ | rfl)
        · exact absurd hd (by decide)
        · exact absurd hd (by decide)

/-! ## Texts that pass -/

/-- In front of a line feed, the check comes out of the text as it came to it. -/
def Passes (text : List Char) : Prop :=
  ∀ line depth rest, ∃ later,
    Scan.resume line ⟨depth, none, false⟩ (text ++ '\n' :: rest) =
      Scan.restart later ⟨depth, none, false⟩ rest

/-- The check comes out of the lines as it came to them. -/
def PassesLines (text : List Char) : Prop :=
  ∀ line depth rest, ∃ later,
    Scan.restart line ⟨depth, none, false⟩ (text ++ rest) =
      Scan.restart later ⟨depth, none, false⟩ rest

theorem passes_unmarked {w : List Char} (h : Unmarked w) : Passes w := by
  intro line depth rest
  exact ⟨line + 1, by rw [Scan.resume_unmarked h, Scan.resume_lineFeed]⟩

/-- What is written for a character cannot end a quotation between single quotes. -/
theorem inside_escaped (content : List Char) : Inside '\'' (content.flatMap escaped) := by
  induction content with
  | nil => exact .nil
  | cons c content ih =>
      rw [List.flatMap_cons, escaped]
      by_cases hc : c == '\\' || c == '\'' || c == '"'
      · -- The character stands behind a backslash, and it is no line feed.
        rw [if_pos hc]
        refine @Inside.escaped _ c _ 0 ?_ ih
        rintro rfl
        exact absurd hc (by decide)
      · rw [if_neg hc]
        by_cases hnull : c == '\x00'
        · rw [if_pos hnull]
          exact @Inside.escaped _ '0' _ 0 (by decide) ih
        · rw [if_neg hnull]
          simp only [Bool.or_eq_true, beq_iff_eq, not_or] at hc
          exact .plain hc.1.2 hc.1.1 ih

theorem passes_text (content : String) : Passes (quotedText content).toList := by
  intro line depth rest
  have htext : (quotedText content).toList ++ '\n' :: rest =
      '\'' :: (content.toList.flatMap escaped ++ '\'' :: '\n' :: rest) := by
    simp [quotedText]
  exact ⟨_, by rw [htext, Scan.resume_quote (Or.inl rfl), Scan.resume_inside (inside_escaped _),
    Scan.resume_unquote (Or.inl rfl), Scan.resume_lineFeed]⟩

/-- Neutral code passes anywhere in a document, in front of a line feed. -/
theorem passes_code {code : String} (h : Neutral code) : Passes (quotedCode code).toList := by
  rcases h with ⟨hbraces, hquote⟩
  -- The assignment is no comment, and what is assigned to does not matter.
  have hresume : Scan.restart 1 {} ("x = " ++ quotedCode code).toList =
      Scan.resume 1 {} (quotedCode code).toList := by
    have hcomment : ¬ StartsComment ("x = ".toList ++ (quotedCode code).toList) :=
      not_startsComment_behind (w := ['x', ' ']) (by decide) (by decide) (by decide) (by decide) _
    rw [String.toList_append, Scan.restart_ordinary 1 0 hcomment, Scan.resume_unmarked (by decide)]
  cases hscan : Scan.resume 1 {} (quotedCode code).toList with
  | error imbalance =>
      rw [hresume, hscan] at hquote
      simp [Except.map] at hquote
  | ok after =>
      have hdepth : after.depth = 0 := by
        have hlines : Scan.lines 1 {} (Text.segments '\n' ("x = " ++ quotedCode code).toList) =
            .ok after := hresume.trans hscan
        by_contra hne
        rw [checkBraces, hlines] at hbraces
        simp [hne] at hbraces
      rw [hresume, hscan, Except.map, Except.ok.injEq] at hquote
      intro line depth rest
      -- At any other place there are only more braces open.
      have habove : Scan.Above depth {} ⟨depth, none, false⟩ := ⟨by simp, fun _ => rfl⟩
      rcases Scan.resume_above habove hscan line with ⟨found, hfound, hsame, hsettled⟩
      rcases Scan.resume_split line ⟨depth, none, false⟩ (quotedCode code).toList rest with
        ⟨later, hlater⟩
      refine ⟨later, ?_⟩
      rw [hlater, hfound, hsame, hdepth, hquote, hsettled hquote, Nat.zero_add]
      rfl

/-! ## Layouts that pass -/

section Layouts

variable {margin : Nat → String} (hmargin : ∀ n, Margin (margin n).toList)

include hmargin

mutual

/-- The layout of a value passes if its names are spelled and its code is neutral. -/
theorem passes_layout : (value : Value) → MadeOf Spelled (fun _ => True) Neutral value →
    (level : Nat) → Passes (value.layout margin level).toList
  | .text content, _, level => passes_text content
  | .expression code, hcode, level => passes_code hcode
  | .boolean value, _, level => by
      rw [Value.layout]
      cases value with
      | false => exact passes_unmarked (by decide)
      | true => exact passes_unmarked (by decide)
  | .object name entries, hobject, level => by
      intro line depth rest
      have htext : ((Value.object name entries).layout margin level).toList ++ '\n' :: rest =
          (name.toList ++ [' ']) ++ '\x7b' :: '\n' ::
            ((Value.layoutEntries margin (level + 1) entries).toList ++
              ((margin level).toList ++ '\x7d' :: '\n' :: rest)) := by
        simp [Value.layout]
      have hname : Unmarked (name.toList ++ [' ']) :=
        unmarked_append (unmarked_spelled hobject.1) (by decide)
      have hclosing : ¬ StartsComment ((margin level).toList ++ '\x7d' :: '\n' :: rest) :=
        not_startsComment_behind (worded_margin (hmargin level)) (by decide) (by decide)
          (by decide) _
      rcases passesLines_layout entries hobject.2 (level + 1) (line + 1) (depth + 1)
        ((margin level).toList ++ '\x7d' :: '\n' :: rest) with ⟨later, hentries⟩
      refine ⟨later + 1, ?_⟩
      rw [htext, Scan.resume_unmarked hname, Scan.resume_open, Scan.resume_lineFeed, hentries,
        Scan.restart_ordinary _ _ hclosing, Scan.resume_unmarked (unmarked_margin (hmargin level)),
        Scan.resume_close, Scan.resume_lineFeed]

theorem passesLines_layout : (entries : List (String × Value)) →
    EntriesMadeOf Spelled (fun _ => True) Neutral entries → (level : Nat) →
    PassesLines (Value.layoutEntries margin level entries).toList
  | [], _, level => fun line depth rest => ⟨line, rfl⟩
  | (path, value) :: others, hentries, level => by
      intro line depth rest
      rcases hentries with ⟨hpath, hvalue, hothers⟩
      have htext : (Value.layoutEntries margin level ((path, value) :: others)).toList ++ rest =
          ((margin level).toList ++ path.toList ++ " = ".toList) ++
            ((value.layout margin level).toList ++ '\n' ::
              ((Value.layoutEntries margin level others).toList ++ rest)) := by
        simp [Value.layoutEntries]
      have hstart : Unmarked ((margin level).toList ++ path.toList ++ " = ".toList) :=
        unmarked_append (unmarked_append (unmarked_margin (hmargin level))
          (unmarked_spelled hpath)) (by decide)
      have hcomment : ∀ s, ¬ StartsComment
          (((margin level).toList ++ path.toList ++ " = ".toList) ++ s) := by
        intro s
        have hbefore : Worded ((margin level).toList ++ path.toList ++ [' ']) :=
          worded_append (worded_append (worded_margin (hmargin level)) (worded_spelled hpath))
            (by decide)
        have := not_startsComment_behind hbefore (c := '=') (by decide) (by decide) (by decide)
          (' ' :: s)
        simpa using this
      rcases passes_layout value hvalue level line depth
        ((Value.layoutEntries margin level others).toList ++ rest) with ⟨between, hlayout⟩
      rcases passesLines_layout others hothers level between depth rest with ⟨later, hrest⟩
      refine ⟨later, ?_⟩
      rw [htext, Scan.restart_ordinary _ _ (hcomment _), Scan.resume_unmarked hstart, hlayout,
        hrest]

end

end Layouts

/-- A layout starts with a quote, the mark of code or a name, and not with a comment. -/
theorem not_startsComment_layout (margin : Nat → String) (level : Nat) {value : Value}
    (h : MadeOf Spelled (fun _ => True) Neutral value) (rest : List Char) :
    ¬ StartsComment ((value.layout margin level).toList ++ rest) := by
  cases value with
  | text content =>
      have hquote := not_startsComment_behind (w := []) (by decide) (c := '\'') (by decide)
        (by decide) (by decide) (content.toList.flatMap escaped ++ '\'' :: rest)
      simpa [Value.layout, quotedText] using hquote
  | expression code =>
      have hmark := not_startsComment_behind (w := []) (by decide) (c := '$') (by decide)
        (by decide) (by decide) ('\x7b' :: (code.toList ++ '\x7d' :: rest))
      simpa [Value.layout, quotedCode] using hmark
  | boolean value =>
      cases value with
      | false =>
          have hword := not_startsComment_behind (w := []) (by decide) (c := 'f') (by decide)
            (by decide) (by decide) ("alse".toList ++ rest)
          simpa [Value.layout] using hword
      | true =>
          have hword := not_startsComment_behind (w := []) (by decide) (c := 't') (by decide)
            (by decide) (by decide) ("rue".toList ++ rest)
          simpa [Value.layout] using hword
  | object name entries =>
      have hname : Worded (name.toList ++ [' ']) :=
        worded_append (worded_spelled h.1) (by decide)
      have hbrace := not_startsComment_behind hname (c := '\x7b') (by decide) (by decide)
        (by decide) ('\n' :: ((Value.layoutEntries margin (level + 1) entries).toList ++
          ((margin level).toList ++ '\x7d' :: rest)))
      simpa [Value.layout] using hbrace

/-! ## Documents that pass -/

theorem passesLines_append {text text' : List Char} (h : PassesLines text)
    (h' : PassesLines text') : PassesLines (text ++ text') := by
  intro line depth rest
  rcases h line depth (text' ++ rest) with ⟨between, hbetween⟩
  rcases h' between depth rest with ⟨later, hlater⟩
  exact ⟨later, by rw [List.append_assoc, hbetween, hlater]⟩

/-- A document of lines that pass is accepted. -/
theorem checkBraces_of_passesLines {document : String} (h : PassesLines document.toList) :
    checkBraces document = .ok () := by
  rcases h 1 0 [] with ⟨later, hlater⟩
  have hscan : Scan.lines 1 {} (Text.segments '\n' document.toList) = .ok {} := by
    rw [List.append_nil] at hlater
    exact hlater
  rw [checkBraces, hscan]
  rfl

theorem passesLines_commentLine (s : Settings) {comment : Option String}
    (h : ∀ text ∈ comment, '\n' ∉ text.toList) : PassesLines (s.commentLine comment).toList := by
  have hnone : PassesLines "".toList := fun line depth rest => ⟨line, rfl⟩
  cases comment with
  | none => exact hnone
  | some text =>
      rw [Settings.commentLine]
      by_cases hadd : (s.addComment.isTrue && text != "") = true
      · rw [if_pos hadd]
        intro line depth rest
        have hline : '\n' ∉ "// ".toList ++ text.toList := by
          rw [List.mem_append, not_or]
          exact ⟨by decide, h text rfl⟩
        have hcomment : StartsComment ("// ".toList ++ text.toList) :=
          ⟨[], ' ' :: text.toList, by simp [Blanks], by simp, Or.inl rfl⟩
        have htext : ("// " ++ text ++ "\n").toList ++ rest =
            ("// ".toList ++ text.toList) ++ '\n' :: rest := by
          simp
        exact ⟨line + 1, by rw [htext, Scan.restart_comment line depth hline hcomment]⟩
      · rw [if_neg hadd]
        exact hnone

/-- A line that opens a brace, an assignment behind it, and a line that closes the brace. -/
theorem passesLines_braced {head path body : List Char} (hhead : Unmarked head)
    (hfirst : ∀ s, ¬ StartsComment (head ++ s)) (hpath : Unmarked path)
    (hsecond : ∀ s, ¬ StartsComment (path ++ s)) (hbody : Passes body) :
    PassesLines (head ++ '\x7b' :: '\n' :: (path ++ (body ++ "\n\x7d\n".toList))) := by
  intro line depth rest
  have hlast : ∀ s, ¬ StartsComment ('\x7d' :: s) := fun s =>
    not_startsComment_behind (w := []) (by decide) (by decide) (by decide) (by decide) s
  have htext : head ++ '\x7b' :: '\n' :: (path ++ (body ++ "\n\x7d\n".toList)) ++ rest =
      head ++ '\x7b' :: '\n' :: (path ++ (body ++ '\n' :: '\x7d' :: '\n' :: rest)) := by
    simp
  rcases hbody (line + 1) (depth + 1) ('\x7d' :: '\n' :: rest) with ⟨later, hlater⟩
  refine ⟨later + 1, ?_⟩
  rw [htext, Scan.restart_ordinary _ _ (hfirst _), Scan.resume_unmarked hhead, Scan.resume_open,
    Scan.resume_lineFeed, Scan.restart_ordinary _ _ (hsecond _), Scan.resume_unmarked hpath,
    hlater, Scan.restart_ordinary _ _ (hlast _), Scan.resume_close, Scan.resume_lineFeed]

/-- A declaration passes if its renderer does. -/
theorem passesLines_declaration {name renderer : String} (hname : Spelled name)
    (hrenderer : Passes renderer.toList) {comment : Option String}
    (hcomment : ∀ text ∈ comment, '\n' ∉ text.toList) :
    PassesLines (({} : Settings).declaration name renderer comment).toList := by
  have hhead : Unmarked ("prototype(".toList ++ name.toList ++
      ") < prototype(Neos.Fusion:Component) ".toList) :=
    unmarked_append (unmarked_append (by decide) (unmarked_spelled hname)) (by decide)
  have hfirst : ∀ s, ¬ StartsComment ("prototype(".toList ++ name.toList ++
      ") < prototype(Neos.Fusion:Component) ".toList ++ s) := by
    intro s
    have hword := not_startsComment_behind (w := "prototype".toList) (by decide) (c := '(')
      (by decide) (by decide) (by decide)
      (name.toList ++ (") < prototype(Neos.Fusion:Component) ".toList ++ s))
    simpa using hword
  have hsecond : ∀ s, ¬ StartsComment ("    renderer = ".toList ++ s) := fun s =>
    not_startsComment_behind (w := "    renderer ".toList) (by decide) (c := '=') (by decide)
      (by decide) (by decide) (' ' :: s)
  have hall := passesLines_append (passesLines_commentLine {} hcomment)
    (passesLines_braced hhead hfirst (by decide) hsecond hrenderer)
  simpa [Settings.declaration, Datum.display] using hall

/-- What is generated passes if the texts of directives are spelled and code is
    neutral, and it does not start with a comment. -/
theorem passes_generate {limit : Nat} {source : List Char} {values : List Markup}
    (hread : readWithin limit source = .ok values)
    (htexts : ∀ text ∈ directiveTextsAll values, Spelled text)
    (hcodes : ∀ code ∈ codesAll values, Neutral code) {base output : String}
    (hbase : Margin base.toList)
    (hgenerate : ({} : Settings).generate (.text base) values = .ok output) :
    Passes output.toList ∧ ∀ rest, ¬ StartsComment (output.toList ++ rest) := by
  have hvalues := wellFormed_of_mem (wellFormedAll_of_derives (derives_of_readWithin hread).1)
  have hspelled : ∀ name : String, IsName name.toList → Spelled name := fun _ hname => hname.2
  rcases generate_eq_ok hgenerate with ⟨rendered, hrendered, rfl⟩
  have htree := (rendersTrees defaultVocabulary budget).siblings values hvalues rendered hrendered
  have hmade : MadeOf Spelled (fun _ => True) Neutral rendered := by
    rw [htree]
    have hsuits := named_default.suits hspelled
    exact madeOf_joined hsuits
      (madeOf_trees hsuits values hvalues htexts (fun _ _ => trivial) hcodes)
  exact ⟨passes_layout (margin_default hbase) rendered hmade 0,
    not_startsComment_layout _ 0 hmade⟩

/-- Documents that are generated from what was read are accepted, by themselves and in
    a declaration, if the texts of directives are spelled and all code is neutral. What
    texts, values and comments hold does not matter. Up to 328 tags may nest, and then a
    document is generated whenever the directives have texts. -/
theorem checkBraces_generate {limit : Nat} {source : List Char} {values : List Markup}
    (hread : readWithin limit source = .ok values)
    (htexts : ∀ text ∈ directiveTextsAll values, Spelled text)
    (hcodes : ∀ code ∈ codesAll values, Neutral code) :
    (∀ base output, Margin base.toList →
      ({} : Settings).generate (.text base) values = .ok output →
        checkBraces (output ++ "\n") = .ok ()) ∧
    (∀ output, ({} : Settings).generate ({} : Settings).indentation values = .ok output →
      ∀ name, Spelled name → ∀ comment : Option String, (∀ text ∈ comment, '\n' ∉ text.toList) →
        checkBraces (({} : Settings).declaration name output comment) = .ok ()) ∧
    (textualDirectivesAll values = true → nestingOf values ≤ 328 → ∀ base,
      ∃ output, ({} : Settings).generate (.text base) values = .ok output) := by
  refine ⟨?_, ?_, ?_⟩
  · -- The layout passes in front of the line feed that ends the document.
    intro base output hbase hgenerate
    rcases passes_generate hread htexts hcodes hbase hgenerate with ⟨hpasses, hstart⟩
    refine checkBraces_of_passesLines fun line depth rest => ?_
    rcases hpasses line depth rest with ⟨later, hlater⟩
    refine ⟨later, ?_⟩
    rw [String.toList_append, List.append_assoc, Scan.restart_ordinary _ _ (hstart _)]
    exact hlater
  · intro output hgenerate name hname comment hcomment
    have hpasses := (passes_generate hread htexts hcodes (by decide) hgenerate).1
    exact checkBraces_of_passesLines (passesLines_declaration hname hpasses hcomment)
  · intro htextual hnesting base
    have hvalues := wellFormed_of_mem (wellFormedAll_of_derives (derives_of_readWithin hread).1)
    exact succeeds_generate hvalues htextual hnesting base

/-- Braces, quotes, a backslash and comment marks in texts and comments, an empty key, and
    code whose last line is a comment that hides the brace behind it. -/
theorem checkBraces_generate_hidden :
    ∃ values output,
      readWithin 1 ("<p @key='' a=\"\x7b\n// '\\\\\" \x7b...\x60\x7d\x60\n//\x7d>" ++
        "// \x7d\" <!-- \x7b --></p>").toList = .ok values ∧
      ({} : Settings).generate ({} : Settings).indentation values = .ok output ∧
      checkBraces (output ++ "\n") = .ok () ∧
      checkBraces (({} : Settings).declaration "A:B" output (some "\x7b '")) = .ok () := by
  have hread : readWithin 1 ("<p @key='' a=\"\x7b\n// '\\\\\" \x7b...\x60\x7d\x60\n//\x7d>" ++
        "// \x7d\" <!-- \x7b --></p>").toList =
      .ok [.element "p" false
        [.prop "@key" (.literal ""), .prop "a" (.literal "\x7b\n// '\\"),
          .spread (.expression "\x60\x7d\x60\n//")]
        [.text "// \x7d\" ", .comment " \x7b "]] := by
    rfl
  have hneutral : Neutral "\x60\x7d\x60\n//" := ⟨rfl, rfl⟩
  have hall := checkBraces_generate hread (by decide) (by simpa [codesAll, codes] using hneutral)
  rcases hall with ⟨hdocument, hdeclaration, hsucceeds⟩
  rcases hsucceeds rfl (by decide) "    " with ⟨output, houtput⟩
  exact ⟨_, output, hread, houtput, hdocument _ output (by decide) houtput,
    hdeclaration output houtput "A:B" (by decide) (some "\x7b '") (by simp)⟩

end Fusion

end Afx
