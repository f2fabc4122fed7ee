import Afx.Fusion.Conversion
import Afx.Proofs.Concatenation

/-!
# Locations Behind Blanks

A conversion takes the blanks around a source off before it reads it, and a fault is
reported by its line and column. An author looks for that line and column in the file
that was converted, and the file has its blanks. Here is when the two agree.

The reader itself is not to blame. It finds the same fault in a source with blanks in
front of it, as far behind them, so given all of the text it would report the place
that the author looks for. A conversion gives it only a part, and then reports the
place in that part. Each line feed that was taken off makes the line too small by
one. On the first line the column is too small as well, by as many blanks as were
taken off from it. So the report is right only if there were no blanks, or if there
were no line feeds among them and the fault lies on a later line.

A message has the line and the column as numbers in its text. The numbers can be read
off it again, so two messages about one cause are the same only if they mean the same
line and column.

## Theorems

* `Text.location_append_iff`: When a place is called the same behind other text.
* `Markup.annotated_eq_iff`: A message shows its line and column.
* `Markup.read_blanks_append`: A reader finds a fault behind blanks as well.
* `convert_blanks_append`: A conversion does not see the blanks.
* `convert_reports_place_iff`: When the reported place is the one in the whole text.
-/

namespace Afx

namespace Text

/-! ## Places behind other text -/

theorem lineStart_append {s : List Char} (h : '\n' ∈ s) (front : List Char) :
    lineStart (front ++ s) = front.length + lineStart s := by
  induction front with
  | nil => simp
  | cons c front ih =>
      have hmem : '\n' ∈ c :: (front ++ s) := by simp [h]
      rw [List.cons_append, lineStart_cons hmem, ih, List.length_cons]
      omega

theorem location_of_nat (source : List Char) (position : Nat) :
    Location.of source position =
      { line := (source.take position).count '\n' + 1
        column := position - lineStart (source.take position) + 1 } := by
  simp [Location.of, before]

/-- Behind other text a place has the same line and column only if there is no other text, or if
    that is all on the first line and the place is not. -/
theorem location_append_iff (front source : List Char) (position : Nat) :
    Location.of (front ++ source) ((front.length + position : Nat) : Int) =
        Location.of source position ↔
      front = [] ∨ '\n' ∉ front ∧ '\n' ∈ source.take position := by
  have htake : (front ++ source).take (front.length + position) =
      front ++ source.take position := by
    rw [List.take_append, List.take_of_length_le (by omega), Nat.add_sub_cancel_left]
  rw [location_of_nat, location_of_nat, htake, List.count_append, Location.mk.injEq]
  constructor
  · rintro ⟨hline, hcolumn⟩
    have hfront : '\n' ∉ front := by
      rw [← List.count_eq_zero]
      omega
    by_cases hsource : '\n' ∈ source.take position
    · exact Or.inr ⟨hfront, hsource⟩
    · -- Both places are on the first line, and the columns differ by all of the other text.
      have hnone : '\n' ∉ front ++ source.take position := by simp [hfront, hsource]
      rw [lineStart_of_not_mem hnone, lineStart_of_not_mem hsource] at hcolumn
      exact Or.inl (List.length_eq_zero_iff.mp (by omega))
  · rintro (rfl | ⟨hfront, hsource⟩)
    · simp
    · rw [List.count_eq_zero_of_not_mem hfront, lineStart_append hsource]
      exact ⟨by omega, by omega⟩

/-- The column of a position is a natural number. -/
theorem exists_column (source : List Char) (position : Nat) :
    ∃ column : Nat, (Location.of source position).column = column := by
  have hstart : lineStart (source.take position) ≤ position := by
    have hle : lineStart (source.take position) ≤ (source.take position).length :=
      Nat.sub_le _ _
    rw [List.length_take] at hle
    omega
  refine ⟨position - lineStart (source.take position) + 1, ?_⟩
  rw [location_of_nat]
  dsimp only
  omega

end Text

namespace Markup

/-! ## Places in messages -/

/-- A number ends where a text goes on that is no part of a name. -/
theorem toString_append_inj {m n : Nat} {s t : List Char} (hs : EndsName s) (ht : EndsName t)
    (h : (toString m).toList ++ s = (toString n).toList ++ t) : m = n ∧ s = t := by
  have hnumber : (toString m).toList = (toString n).toList := by
    rw [← takeWhile_run (isName_toString m).2 hs, h, takeWhile_run (isName_toString n).2 ht]
  have hrest : s = t := by
    rw [hnumber] at h
    exact List.append_cancel_left h
  refine ⟨(@append_toString_inj "" m n).mp ?_, hrest⟩
  rw [String.toList_inj.mp hnumber]

/-- A message shows the line and the column of its position, and nothing else of the source. -/
theorem annotated_eq_iff (message : String) (s t : List Char) (p q : Nat) :
    Text.annotated message s (some p) = Text.annotated message t (some q) ↔
      Text.Location.of s p = Text.Location.of t q := by
  constructor
  · intro h
    rcases Text.exists_column s p with ⟨column, hcolumn⟩
    rcases Text.exists_column t q with ⟨column', hcolumn'⟩
    unfold Text.annotated at h
    dsimp only at h
    rw [hcolumn, hcolumn', ← String.toList_inj] at h
    simp only [String.toList_append, List.append_assoc, List.append_cancel_left_eq] at h
    -- The texts behind the two numbers start with a comma and a parenthesis.
    have hcomma : ∀ s, EndsName (", column ".toList ++ s) := by
      intro s c hc
      rw [← Option.mem_some_iff.mp hc]
      rfl
    have hparenthesis : EndsName ")".toList := by
      intro c hc
      rw [← Option.mem_some_iff.mp hc]
      rfl
    rcases toString_append_inj (hcomma _) (hcomma _) h with ⟨hline, hbehind⟩
    rw [List.append_cancel_left_eq] at hbehind
    have hsame : column = column' := (toString_append_inj hparenthesis hparenthesis hbehind).1
    calc Text.Location.of s p
        = ⟨(Text.Location.of s p).line, (Text.Location.of s p).column⟩ := rfl
      _ = ⟨(Text.Location.of t q).line, (Text.Location.of t q).column⟩ := by
          rw [hline, hcolumn, hcolumn', hsame]
  · intro h
    rw [Text.annotated, Text.annotated, h]

/-! ## Reading behind blanks -/

/-- A fault in the second of two texts lies as far behind the first. -/
theorem position?_append {source : List Char} {fault : Fault} (h : fault.rest <:+ source)
    (front : List Char) :
    fault.position? (front ++ source) = (fault.position? source).map (front.length + ·) := by
  have hlength := h.length_le
  unfold Fault.position?
  split
  · rfl
  · rw [List.length_append, Option.map_some, Nat.add_sub_assoc hlength]

/-- Blanks are read as text. -/
theorem read_blanks {w : List Char} (hw : Blanks w) : ∃ values, read w = .ok values := by
  by_cases hne : w = []
  · subst hne
    exact ⟨[], readWithin_of_derives .nil (Nat.zero_le _)⟩
  · have htext : ∀ c ∈ w, c ≠ '<' ∧ c ≠ '\x7b' := by
      intro c hc
      have hblank := hw c hc
      constructor <;> rintro rfl <;> exact absurd hblank (by decide)
    have hderives := derives_append_text .nil hne htext
    exact ⟨_, readWithin_of_derives hderives (by simp [mergeTexts, nestingOf, nesting])⟩

/-- A reader that is given the blanks in front of a source finds the same fault behind them. -/
theorem read_blanks_append {w source : List Char} (hw : Blanks w) {fault : Fault}
    (h : read source = .error fault) :
    read (w ++ source) = .error fault ∧
      fault.position? (w ++ source) = (fault.position? source).map (w.length + ·) := by
  rcases read_blanks hw with ⟨values, hvalues⟩
  have hboth := readWithin_append hvalues source
  rw [read] at h ⊢
  rw [h] at hboth
  exact ⟨hboth, position?_append (located_of_error h).1 w⟩

end Markup

namespace Fusion

open Markup

/-! ## Conversions -/

theorem trim_blanks_append {w : List Char} (hw : Blanks w) (s : List Char) :
    Text.trim (w ++ s) = Text.trim s := by
  rw [Text.trim, skipBlank_append hw, Text.trim]

/-- What was read is not called unreadable later. -/
theorem generate_ne_unreadable (s : Settings) (base : Datum) (values : List Markup)
    (source : List Char) (fault : Markup.Fault) :
    s.generate base values ≠ .error (.unreadable source fault) := by
  unfold Settings.generate Indentation.guarding
  dsimp only
  split
  · simp [Except.bind]
  · cases siblings s.vocabulary budget values with
    | error other => simp [Except.mapError, Except.bind]
    | ok rendered =>
        simp only [Except.mapError, Except.bind, Indentation.write]
        split <;> simp

/-- A source is unreadable if what is left of it without blanks cannot be read. -/
theorem convert_eq_unreadable {s : Settings} {base : Datum} {source : String} {text : List Char}
    {fault : Markup.Fault} (h : s.convert base source = .error (.unreadable text fault)) :
    text = Text.trim source.toList ∧ read text = .error fault := by
  unfold Settings.convert at h
  dsimp only at h
  split at h
  · exact absurd h (generate_ne_unreadable s base _ text fault)
  · rename_i found hfound
    rw [Except.error.injEq, Failure.unreadable.injEq] at h
    rcases h with ⟨rfl, rfl⟩
    exact ⟨rfl, hfound⟩

/-- A conversion does not see the blanks in front of a source. -/
theorem convert_blanks_append (s : Settings) (base : Datum) {blanks : String}
    (hblanks : Blanks blanks.toList) (source : String) :
    s.convert base (blanks ++ source) = s.convert base source := by
  rw [Settings.convert, Settings.convert, String.toList_append, trim_blanks_append hblanks]

/-- Blanks in front of a source that is refused at a position do not change the report, which
    gives the line and column of the position in the source alone. A reader that is given the
    blanks as well finds the fault behind them. The report has the line and column of that place
    exactly if there are no blanks, or if no line feed is among them but one stands in front of
    the fault in the source. -/
theorem convert_reports_place_iff (s : Settings) (base : Datum) (source blanks : String)
    {text : List Char} {fault : Markup.Fault} {position : Nat}
    (hsource : Text.trim source.toList = source.toList) (hblanks : Blanks blanks.toList)
    (h : s.convert base source = .error (.unreadable text fault))
    (hposition : fault.position? text = some position) :
    s.convert base (blanks ++ source) = .error (.unreadable text fault) ∧
    fault.message text = Text.annotated fault.cause.message source.toList (some position) ∧
    read (blanks ++ source).toList = .error fault ∧
    fault.position? (blanks ++ source).toList = some (blanks.length + position) ∧
    (fault.message text = Text.annotated fault.cause.message (blanks ++ source).toList
        (some ((blanks.length + position : Nat) : Int)) ↔
      blanks = "" ∨ '\n' ∉ blanks.toList ∧ '\n' ∈ source.toList.take position) := by
  rcases convert_eq_unreadable h with ⟨htext, hread⟩
  rw [hsource] at htext
  subst htext
  have hreport : fault.message source.toList =
      Text.annotated fault.cause.message source.toList (some position) := by
    unfold Markup.Fault.message
    rw [hposition]
    rfl
  rcases read_blanks_append hblanks hread with ⟨hboth, hbehind⟩
  rw [hposition, Option.map_some, String.length_toList] at hbehind
  rw [String.toList_append]
  refine ⟨?_, hreport, hboth, hbehind, ?_⟩
  · rw [convert_blanks_append s base hblanks, h]
  · rw [hreport, annotated_eq_iff, eq_comm, ← String.length_toList, Text.location_append_iff,
      String.toList_eq_nil_iff]

/-- A tag on the second line, behind a space and behind a line feed. -/
theorem convert_reports_place_iff_second :
    ∃ fault : Markup.Fault,
      ({} : Settings).convert (.text "") (" " ++ "x\n<a>") =
        .error (.unreadable "x\n<a>".toList fault) ∧
      fault.message "x\n<a>".toList = Text.annotated fault.cause.message
        (" " ++ "x\n<a>").toList (some ((1 + 2 : Nat) : Int)) ∧
      ({} : Settings).convert (.text "") ("\n" ++ "x\n<a>") =
        .error (.unreadable "x\n<a>".toList fault) ∧
      fault.message "x\n<a>".toList ≠ Text.annotated fault.cause.message
        ("\n" ++ "x\n<a>").toList (some ((1 + 2 : Nat) : Int)) := by
  have hconvert : ({} : Settings).convert (.text "") "x\n<a>" =
      .error (.unreadable "x\n<a>".toList ⟨.unclosedTag "a", "<a>".toList⟩) := by
    rfl
  have hposition : (⟨.unclosedTag "a", "<a>".toList⟩ : Markup.Fault).position? "x\n<a>".toList =
      some 2 := by
    rfl
  have hspace := convert_reports_place_iff {} (.text "") "x\n<a>" " " rfl
    (by simp [Blanks, Text.isBlank]) hconvert hposition
  have hline := convert_reports_place_iff {} (.text "") "x\n<a>" "\n" rfl
    (by simp [Blanks, Text.isBlank]) hconvert hposition
  refine ⟨_, hspace.1, ?_, hline.1, ?_⟩
  · exact hspace.2.2.2.2.mpr (Or.inr (by decide))
  · intro hreport
    rcases hline.2.2.2.2.mp hreport with hnone | ⟨hnone, -⟩
    · exact absurd hnone (by decide)
    · exact absurd hnone (by decide)

/-- A tag that is not closed, behind an empty line: the report names the line that is empty. -/
theorem convert_misplaces_fault :
    ∃ fault : Markup.Fault,
      ({} : Settings).convert (.text "") "<a>" = .error (.unreadable "<a>".toList fault) ∧
      fault.position? "<a>".toList = some 0 ∧
      ({} : Settings).convert (.text "") ("\n" ++ "<a>") =
        .error (.unreadable "<a>".toList fault) ∧
      fault.message "<a>".toList =
        "Unexpected end of input, tag <a> is not closed (line 1, column 1)" ∧
      Text.annotated fault.cause.message ("\n" ++ "<a>").toList (some ((1 + 0 : Nat) : Int)) =
        "Unexpected end of input, tag <a> is not closed (line 2, column 1)" :=
  ⟨⟨.unclosedTag "a", "<a>".toList⟩, rfl, rfl, rfl, by decide +kernel, by decide +kernel⟩

end Fusion

end Afx
