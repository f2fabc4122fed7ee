import Afx.Proofs.Balance
import Afx.Proofs.Reading
import Afx.Proofs.Wording
import Mathlib.Algebra.GroupWithZero.Nat

/-!
# Where a Fault Lies

A message about a source names a construct, and its line and column lead an author
to it. Some faults are found where they lie, and others only at the end of the
source, long after the construct that is to blame was read: its place was kept
while all in it was read. Here is that every fault lies in the source, at a place
where the construct stands that its message names.

A fault keeps the part of the source that starts where it lies. So two facts are
enough, of every reader: this part is an end of what the reader was given, and it
starts with what the message says. An end of an end is an end, so both facts carry
over from the parts of a source to the whole, and the readers are followed one by
one. The loop over a document remembers where each open tag starts, and its
invariant says that the tag does stand there.

What a cause describes is what its wording reports, so that all this can be said of the
message as it is shown, without a word about causes.

The message shows a line and a column. A line starts behind the lines before it,
each with its line feed, and from there the column leads back to the position.

## Main definitions

* `Text.lineOffset`: Where a line of a text starts.
* `Cause.Describes`: What a message says about the text at its place.
* `Located`: A fault that lies in a source, where its message says.
* `Progress.Within`: A state of reading whose open tags stand in the source.

## Theorems

* `reports_message`: The wording of a cause reports what it describes.
* `Text.lineOffset_location`: A line and a column lead back to the position.
* `Loop.error_of_run`: What every turn keeps holds where a loop fails.
* `located_propAt`, `located_openingAt`, `located_closingAt`: The parts of tags.
* `within_of_next`, `located_of_turn`: What a turn over a document keeps, and where
  it fails.
* `located_of_error`: Every fault of a source is located in it.
* `fault_points_at_construct`: The place that a message gives is that of the
  construct that it names.
-/

namespace Afx

namespace Text

/-! ## Lines -/

/-- Where a line starts, counted from one: behind the lines before it, each of which
    ends with a line feed. -/
def lineOffset (source : List Char) (line : Nat) : Nat :=
  (((segments '\n' source).take (line - 1)).map fun text => text.length + 1).sum

theorem lineStart_of_not_mem {s : List Char} (h : '\n' ∉ s) : lineStart s = 0 := by
  have hall : s.reverse.takeWhile (· != '\n') = s.reverse := by
    rw [List.takeWhile_eq_self_iff]
    intro c hc
    rw [List.mem_reverse] at hc
    simpa using fun heq : c = '\n' => h (heq ▸ hc)
  unfold lineStart
  rw [hall, List.length_reverse, Nat.sub_self]

theorem lineStart_cons {c : Char} {s : List Char} (h : '\n' ∈ c :: s) :
    lineStart (c :: s) = lineStart s + 1 := by
  have hle := (List.takeWhile_sublist (l := s.reverse) (· != '\n')).length_le
  rw [List.length_reverse] at hle
  -- The run at the end does not reach beyond a line feed, so not to the front.
  have hbehind : (s.reverse ++ [c]).takeWhile (· != '\n') = s.reverse.takeWhile (· != '\n') := by
    rw [List.takeWhile_append]
    split
    · rename_i hlength
      have hwhole := (List.takeWhile_sublist _).eq_of_length hlength
      have hnone := List.takeWhile_eq_self_iff.mp hwhole '\n'
      have hc : c = '\n' := by
        rcases List.mem_cons.mp h with hc | hmem
        · exact hc.symm
        · simpa using hnone (List.mem_reverse.mpr hmem)
      rw [hc, hwhole]
      simp
    · rfl
  unfold lineStart
  rw [List.reverse_cons, hbehind, List.length_cons]
  omega

theorem lineOffset_lineFeed (s : List Char) (n : Nat) :
    lineOffset ('\n' :: s) (n + 2) = lineOffset s (n + 1) + 1 := by
  unfold lineOffset
  rw [segments, cut_separator]
  simp
  omega

theorem lineOffset_cons {c : Char} (hc : c ≠ '\n') (s : List Char) (n : Nat) :
    lineOffset (c :: s) (n + 2) = lineOffset s (n + 2) + 1 := by
  unfold lineOffset
  rw [segments, cut_cons hc, segments]
  simp
  omega

/-- The last line of a text starts where the lines before it end, whatever follows. -/
theorem lineOffset_append (text rest : List Char) :
    lineOffset (text ++ rest) (text.count '\n' + 1) = lineStart text := by
  induction text with
  | nil => simp [lineOffset, lineStart]
  | cons c s ih =>
      by_cases hc : c = '\n'
      · subst hc
        rw [List.cons_append, List.count_cons_self, lineOffset_lineFeed, ih,
          lineStart_cons (List.mem_cons_self ..)]
      · rw [List.cons_append, List.count_cons_of_ne hc]
        by_cases hmem : '\n' ∈ s
        · -- The first line is not the last, and it is longer by one character.
          rcases Nat.exists_eq_add_of_lt (List.count_pos_iff.mpr hmem) with ⟨n, hn⟩
          rw [Nat.zero_add] at hn
          rw [hn] at ih ⊢
          rw [lineOffset_cons hc, ih, lineStart_cons (List.mem_cons_of_mem c hmem)]
        · have hnone : '\n' ∉ c :: s := by simp [hmem, Ne.symm hc]
          rw [List.count_eq_zero_of_not_mem hmem, lineStart_of_not_mem hnone]
          simp [lineOffset]

/-- A line and a column lead back to the position that they were found for. -/
theorem lineOffset_location (source : List Char) (position : Nat) :
    (lineOffset source (Location.of source position).line : Int) +
      (Location.of source position).column - 1 = position := by
  have hline := lineOffset_append (source.take position) (source.drop position)
  rw [List.take_append_drop] at hline
  simp only [Location.of, before_natCast, hline]
  omega

end Text

namespace Loop

variable {σ ε α : Type}

/-- What every turn keeps holds where the loop fails: if going on keeps `P`, and
    failing from a state with `P` gives an error with `Q`, then errors have `Q`. -/
theorem error_of_run {loop : Loop σ ε α} {P : σ → Prop} {Q : ε → Prop}
    (hnext : ∀ s t, P s → loop.turn s = .ok (.next t) → P t)
    (herror : ∀ s e, P s → loop.turn s = .error e → Q e)
    {s : σ} {e : ε} (hs : P s) (h : loop.run s = .error e) : Q e := by
  induction hw : loop.weight s using Nat.strongRecOn generalizing s with
  | ind n ih =>
      cases ht : loop.turn s with
      | error f =>
          rw [run_of_error ht, Except.error.injEq] at h
          exact h ▸ herror s f hs ht
      | ok turned =>
          cases turned with
          | stop a => rw [run_of_stop ht] at h; simp at h
          | next t =>
              rw [run_of_next ht] at h
              exact ih _ (hw ▸ loop.lowers ht) (hnext s t hs ht) h rfl

end Loop

namespace Markup

/-! ## What messages say -/

/-- What the message of a cause says about the text at its place. A character that was
    found stands there, and if none was found, the source ends there. -/
def Cause.Describes : Cause → List Char → Prop
  | .unclosedTag tag, s => '<' :: tag.toList <+: s
  | .strayInTag tag none, s => '<' :: tag.toList <+: s
  | .strayInTag _ (some c), s => s.head? = some c
  | .strayClosingTag, s => "</".toList <+: s
  | .mismatchedTag closing opening, s =>
    "</".toList ++ closing.toList <+: s ∧ closing ≠ opening
  | .unterminated .comment, s => "<!--".toList <+: s ∧ ¬ "-->".toList <:+: s.drop 4
  | .unterminated .quotation, s => s.head? = some '"' ∨ s.head? = some '\''
  | .unterminated .expression, s => s.head? = some '\x7b'
  | .unterminated .spread, s => "\x7b...".toList <+: s
  | .spreadExpected, s => s.head? = some '\x7b' ∧ ¬ "\x7b...".toList <+: s
  | .tagNameExpected found, s => s.head? = found
  | .closingNameExpected found, s => s.head? = found
  | .textExpected expected context found, s =>
    s.head? = found ∧ expected = ">" ∧ ∃ tag, context = "closing tag </" ++ tag ++ ">"
  | .valueExpected owner found, s =>
    s.head? = found ∧ ∀ c ∈ owner.toList, isNameChar c = true
  | .nestedTooDeeply, _ => True

/-- The wording of a cause reports what the cause describes. -/
theorem reports_message {cause : Cause} {s : List Char} (h : cause.Describes s)
    (hcause : cause ≠ .nestedTooDeeply) : Reports cause.message s := by
  cases cause with
  | unclosedTag tag => exact .unclosedTag h
  | strayClosingTag => exact .strayClosingTag h
  | unterminated construct =>
      cases construct with
      | comment => exact .comment h.1 h.2
      | quotation => exact .quotation h
      | expression => exact .expression h
      | spread => exact .spread h
  | tagNameExpected found => exact reports_unexpected h .tagName
  | closingNameExpected found => exact reports_unexpected h .closingName
  | strayInTag tag found =>
      cases found with
      | none => exact .endInTag h
      | some c =>
          rcases List.head?_eq_some_iff.mp h with ⟨rest, rfl⟩
          exact .characterInTag (shows_quoted c)
  | textExpected expected context found =>
      rcases h with ⟨hfound, rfl, tag, rfl⟩
      exact reports_bracket hfound tag
  | valueExpected owner found => exact reports_value h.1 h.2
  | spreadExpected => exact .spreadExpected h.1 h.2
  | mismatchedTag closing opening => exact .mismatchedTag h.1 h.2
  | nestedTooDeeply => exact absurd rfl hcause

/-- A fault that lies in the source, at a place where the text is as its message
    says. -/
def Located (source : List Char) (fault : Fault) : Prop :=
  fault.rest <:+ source ∧ fault.cause.Describes fault.rest

theorem located_of_suffix {s source : List Char} {fault : Fault} (h : Located s fault)
    (hs : s <:+ source) : Located source fault :=
  ⟨h.1.trans hs, h.2⟩

theorem skipBlank_suffix (s : List Char) : Text.skipBlank s <:+ s :=
  List.dropWhile_suffix _

theorem afterName_suffix (s : List Char) : afterName s <:+ s :=
  List.dropWhile_suffix _

/-! ## Attributes -/

theorem codeAt_eq_error {construct : Construct} {s : List Char} {fault : Fault}
    (h : codeAt construct s = .error fault) : fault = ⟨.unterminated construct, s⟩ := by
  unfold codeAt at h
  split at h
  · simp at h
  · simpa using h.symm

theorem located_expressionAt {s : List Char} {fault : Fault}
    (h : expressionAt ('\x7b' :: s) = .error fault) : Located ('\x7b' :: s) fault := by
  unfold expressionAt at h
  split at h
  · simp at h
  · rename_i hcode
    cases h
    rw [codeAt_eq_error hcode]
    exact ⟨List.suffix_rfl, rfl⟩

theorem located_spreadAt {s : List Char} {fault : Fault}
    (h : spreadAt ('\x7b' :: s) = .error fault) : Located ('\x7b' :: s) fault := by
  unfold spreadAt at h
  by_cases hdots : "\x7b...".toList.isPrefixOf ('\x7b' :: s) = true
  · rw [if_pos hdots] at h
    split at h
    · simp at h
    · rename_i hcode
      cases h
      rw [codeAt_eq_error hcode]
      exact ⟨List.suffix_rfl, List.isPrefixOf_iff_prefix.mp hdots⟩
  · rw [if_neg hdots] at h
    cases h
    exact ⟨List.suffix_rfl, rfl, fun hfront => hdots (List.isPrefixOf_iff_prefix.mpr hfront)⟩

theorem located_valueAt {owner : String} (howner : ∀ c ∈ owner.toList, isNameChar c = true)
    {s : List Char} {fault : Fault} (h : valueAt owner s = .error fault) : Located s fault := by
  rw [valueAt.eq_def] at h
  split at h
  · exact located_expressionAt h
  · -- What does not start with a brace has to start with a quote.
    rename_i c rest _
    by_cases hquote : (c == '"' || c == '\'') = true
    · rw [if_pos hquote] at h
      split at h
      · simp at h
      · cases h
        exact ⟨List.suffix_rfl, by simpa [Cause.Describes] using hquote⟩
    · rw [if_neg hquote] at h
      cases h
      exact ⟨List.suffix_rfl, rfl, howner⟩
  · cases h
    exact ⟨List.suffix_rfl, rfl, howner⟩

/-- A prop fails in its value only, which stands behind its name. -/
theorem located_propAt {s : List Char} {fault : Fault} (h : propAt s = .error fault) :
    Located s fault := by
  unfold propAt at h
  dsimp only at h
  split at h
  · rename_i rest hskip
    have hrest : '=' :: rest <:+ s :=
      hskip ▸ (skipBlank_suffix (afterName s)).trans (afterName_suffix s)
    split at h
    · simp at h
    · rename_i hvalue
      cases h
      have howner : ∀ c ∈ (String.ofList (name s)).toList, isNameChar c = true := by
        rw [String.toList_ofList]
        exact fun c hc => List.mem_takeWhile_imp hc
      exact located_of_suffix (located_valueAt howner hvalue)
        ((skipBlank_suffix rest).trans ((List.suffix_cons '=' rest).trans hrest))
  · -- A name alone is a flag, which never fails.
    simp at h

theorem error_of_add {done : List Markup} {read : Except Fault (Markup × List Char)}
    {fault : Fault} (h : Attributes.add done read = .error fault) : read = .error fault := by
  cases read with
  | ok found => simp [Attributes.add] at h
  | error other => simpa [Attributes.add] using h

/-- A turn over attributes fails at one of them, or at the tag if the source ends. -/
theorem located_attribute {tag : String} {start : List Char} {a : Attributes} {fault : Fault}
    (htag : '<' :: tag.toList <+: start) (hrest : a.rest <:+ start)
    (h : a.turn tag start = .error fault) : Located start fault := by
  have hskip := (skipBlank_suffix a.rest).trans hrest
  unfold Attributes.turn at h
  split at h
  · -- The source ends here, but the tag is to blame.
    cases h
    exact ⟨List.suffix_rfl, htag⟩
  · simp at h
  · simp at h
  · rename_i left hleft
    rw [hleft] at hskip
    exact located_of_suffix (located_spreadAt (error_of_add h)) hskip
  · rename_i c left _ _ _ hleft
    rw [hleft] at hskip
    by_cases hc : isNameChar c = true
    · rw [if_pos hc] at h
      exact located_of_suffix (located_propAt (error_of_add h)) hskip
    · rw [if_neg hc] at h
      cases h
      exact ⟨hskip, rfl⟩

theorem located_attributeLoop {tag : String} {start : List Char} {a : Attributes} {fault : Fault}
    (htag : '<' :: tag.toList <+: start) (hrest : a.rest <:+ start)
    (h : (attributeLoop tag start).run a = .error fault) : Located start fault := by
  refine Loop.error_of_run (P := fun a => a.rest <:+ start) ?_ ?_ hrest h
  · intro a next ha hturn
    rcases attributes_turn_next hturn with ⟨v, t, w, read, -, -, heq, -, -⟩
    exact (List.suffix_append (v ++ t ++ w) next.rest).trans (heq ▸ ha)
  · intro a fault ha hturn
    exact located_attribute htag ha hturn

/-! ## Tags -/

theorem located_openingAt {s : List Char} {fault : Fault}
    (h : openingAt ('<' :: s) = .error fault) : Located ('<' :: s) fault := by
  rw [openingAt, List.drop_succ_cons, List.drop_zero] at h
  split at h
  · cases h
    exact ⟨List.suffix_cons '<' s, rfl⟩
  · -- The name in the message is the one that stands behind the bracket.
    refine located_attributeLoop ?_ ((afterName_suffix s).trans (List.suffix_cons '<' s)) h
    rw [String.toList_ofList, List.cons_prefix_cons]
    exact ⟨rfl, List.takeWhile_prefix _⟩

theorem located_closingAt {tag : String} {s : List Char} {fault : Fault}
    (h : closingAt tag ('<' :: '/' :: s) = .error fault) : Located ('<' :: '/' :: s) fault := by
  have hbehind : s <:+ '<' :: '/' :: s := List.suffix_append ['<', '/'] s
  rw [closingAt, List.drop_succ_cons, List.drop_succ_cons, List.drop_zero] at h
  split at h
  · cases h
    exact ⟨hbehind, rfl⟩
  · by_cases hname : (String.ofList (name s) == tag) = true
    · -- The name fits, so something else stands where the tag should end.
      rw [if_pos hname] at h
      split at h
      · simp at h
      · cases h
        exact ⟨(skipBlank_suffix _).trans ((afterName_suffix s).trans hbehind), rfl, rfl, tag, rfl⟩
    · -- Another name is reported with the whole tag, and not where the name ends.
      rw [if_neg hname] at h
      cases h
      refine ⟨List.suffix_rfl, ?_, fun heq => hname (beq_iff_eq.mpr heq)⟩
      rw [String.toList_ofList (l := name s)]
      exact (List.prefix_append_right_inj "</".toList).mpr (List.takeWhile_prefix _)

/-! ## Documents -/

theorem splitAtMark_eq_none {mark done s : List Char} (h : splitAtMark mark done s = none) :
    ¬ mark <:+: s := by
  induction s generalizing done with
  | nil =>
      unfold splitAtMark at h
      split at h
      · simp at h
      · rename_i hmark
        simpa using hmark
  | cons c s ih =>
      unfold splitAtMark at h
      split at h
      · simp at h
      · rename_i hmark
        rw [List.infix_cons_iff, ← List.isPrefixOf_iff_prefix]
        rintro (hfront | hbehind)
        · exact hmark hfront
        · exact ih h hbehind

theorem located_commentAt {s : List Char} {fault : Fault}
    (h : Progress.commentAt ('<' :: '!' :: '-' :: '-' :: s) = .error fault) :
    Located ('<' :: '!' :: '-' :: '-' :: s) fault := by
  unfold Progress.commentAt at h
  split at h
  · simp at h
  · rename_i hnone
    cases h
    exact ⟨List.suffix_rfl, List.prefix_append "<!--".toList s, splitAtMark_eq_none hnone⟩

/-- What is left is an end of the source, and every open tag stands where it is
    said to start. -/
structure Progress.Within (source : List Char) (p : Progress) : Prop where
  rest : p.rest <:+ source
  opened : ∀ tag ∈ p.opened, tag.start <:+ source ∧ '<' :: tag.name.toList <+: tag.start

variable {limit : Nat} {source : List Char}

theorem suffix_of_closingAt {tag : String} {s left : List Char}
    (h : closingAt tag ('<' :: '/' :: s) = .ok left) : left <:+ '<' :: '/' :: s := by
  rw [← String.ofList_toList (s := tag)] at h
  rcases closingAt_eq_ok h with ⟨w, -, rfl⟩
  exact List.suffix_append ('<' :: '/' :: (tag.toList ++ w ++ ">".toList)) left

theorem prefix_of_openingAt {s : List Char} {found : Opening}
    (h : openingAt ('<' :: s) = .ok found) :
    '<' :: found.name.toList <+: '<' :: s ∧ found.rest <:+ '<' :: s := by
  rcases openingAt_eq_ok h with ⟨n, w, a, -, -, -, -, hname, rfl⟩
  constructor
  · rw [hname, String.toList_ofList]
    exact ⟨w ++ a ++ tagEnd found.selfClosing ++ found.rest, by simp⟩
  · exact List.suffix_append ('<' :: (n ++ w ++ a ++ tagEnd found.selfClosing)) found.rest

theorem within_of_close {opened : List Opened} {done : List Markup} {s : List Char}
    {next : Progress} (hp : Progress.Within source ⟨opened, done, '<' :: '/' :: s⟩)
    (h : Progress.close ⟨opened, done, '<' :: '/' :: s⟩ = .ok (.next next)) :
    next.Within source := by
  unfold Progress.close at h
  split at h
  · simp at h
  · rename_i tag outer hopened
    dsimp only at hopened
    subst hopened
    split at h
    · rename_i left hleft
      simp only [Except.ok.injEq, Turn.next.injEq] at h
      subst h
      -- The tags around the one that is closed are still open.
      exact ⟨(suffix_of_closingAt hleft).trans hp.rest,
        fun other hother => hp.opened other (List.mem_cons_of_mem tag hother)⟩
    · simp at h

theorem within_of_enter {opened : List Opened} {done : List Markup} {s : List Char}
    {next : Progress} (hp : Progress.Within source ⟨opened, done, '<' :: s⟩)
    (h : Progress.enter limit ⟨opened, done, '<' :: s⟩ = .ok (.next next)) :
    next.Within source := by
  unfold Progress.enter at h
  split at h
  · simp at h
  · split at h
    · rename_i tag htag
      rcases prefix_of_openingAt htag with ⟨hname, hrest⟩
      have hrest := hrest.trans hp.rest
      split at h
      · simp only [Except.ok.injEq, Turn.next.injEq] at h
        subst h
        exact ⟨hrest, hp.opened⟩
      · -- The tag that is opened starts here.
        simp only [Except.ok.injEq, Turn.next.injEq] at h
        subst h
        refine ⟨hrest, fun other hother => ?_⟩
        rcases List.mem_cons.mp hother with rfl | hother
        · exact ⟨hp.rest, hname⟩
        · exact hp.opened other hother
    · simp at h

/-- A turn over a document takes a piece off the source and keeps what is known of
    the open tags. -/
theorem within_of_next {p next : Progress} (hp : p.Within source)
    (h : p.turn limit = .ok (.next next)) : next.Within source := by
  rcases p with ⟨opened, done, rest⟩
  unfold Progress.turn at h
  dsimp only at h
  split at h
  · -- The end of the source is no turn that goes on.
    unfold Progress.finish at h
    split at h <;> simp at h
  · rcases eq_of_add h with ⟨value, after, hread, rfl⟩
    rcases commentAt_eq_ok hread with ⟨t, -, rfl, -⟩
    exact ⟨(List.suffix_append ("<!--".toList ++ t ++ "-->".toList) after).trans
      (by simpa using hp.rest), hp.opened⟩
  · exact within_of_close hp h
  · exact within_of_enter hp h
  · rcases eq_of_add h with ⟨value, after, hread, rfl⟩
    rcases expressionAt_eq_ok hread with ⟨code, -, rfl, -⟩
    exact ⟨(List.suffix_append ('\x7b' :: code ++ ['\x7d']) after).trans
      (by simpa using hp.rest), hp.opened⟩
  · rcases eq_of_add h with ⟨value, after, hread, rfl⟩
    simp only [Progress.textAt, Except.ok.injEq, Prod.mk.injEq] at hread
    exact ⟨(hread.2 ▸ List.dropWhile_suffix _ : after <:+ rest).trans hp.rest, hp.opened⟩

theorem error_of_addValue {p : Progress} {read : Except Fault (Markup × List Char)} {fault : Fault}
    (h : p.add read = .error fault) : read = .error fault := by
  cases read with
  | ok found => simp [Progress.add] at h
  | error other => simpa [Progress.add] using h

/-- A turn over a document fails at the piece in front, or at the innermost open tag
    if the source ends. -/
theorem located_of_turn {p : Progress} {fault : Fault} (hp : p.Within source)
    (h : p.turn limit = .error fault) : Located source fault := by
  rcases p with ⟨opened, done, rest⟩
  have hrest : rest <:+ source := hp.rest
  unfold Progress.turn at h
  dsimp only at h
  split at h
  · -- The source ends in a tag, whose place was kept when it was opened.
    unfold Progress.finish at h
    split at h
    · simp at h
    · rename_i tag outer hopened
      dsimp only at hopened
      subst hopened
      cases h
      exact hp.opened tag (List.mem_cons_self ..)
  · exact located_of_suffix (located_commentAt (error_of_addValue h)) hrest
  · rename_i s
    unfold Progress.close at h
    split at h
    · cases h
      exact ⟨hrest, List.prefix_append ['<', '/'] s⟩
    · split at h
      · simp at h
      · rename_i hclosing
        cases h
        exact located_of_suffix (located_closingAt hclosing) hrest
  · unfold Progress.enter at h
    split at h
    · -- The message about tags that nest too deeply says nothing about the text.
      cases h
      exact ⟨hrest, trivial⟩
    · split at h
      · split at h <;> simp at h
      · rename_i hopening
        cases h
        exact located_of_suffix (located_openingAt hopening) hrest
  · exact located_of_suffix (located_expressionAt (error_of_addValue h)) hrest
  · -- Text is whatever stands there, so it never fails.
    simp [Progress.add] at h

theorem located_of_error {fault : Fault} (h : readWithin limit source = .error fault) :
    Located source fault := by
  refine Loop.error_of_run (P := Progress.Within source) ?_ ?_ ⟨List.suffix_rfl, by simp⟩ h
  · intro p next hp hturn
    exact within_of_next hp hturn
  · intro p fault hp hturn
    exact located_of_turn hp hturn

/-! ## Positions -/

theorem drop_of_suffix {s source : List Char} (h : s <:+ source) :
    source.drop (source.length - s.length) = s :=
  (List.suffix_iff_eq_drop.mp h).symm

/-- A source that is refused is refused at a position in it. The message is one of those of
    `Reports`, about the text at this position, and behind it a line and a column that are
    those of no other position, and that lead back to this one. -/
theorem fault_points_at_construct {fault : Fault} (h : readWithin limit source = .error fault)
    (hcause : fault.cause ≠ .nestedTooDeeply) :
    ∃ position text, fault.position? source = some position ∧ position ≤ source.length ∧
      fault.cause.Describes (source.drop position) ∧ Reports text (source.drop position) ∧
      ∃ place, place = Text.Location.of source position ∧
        fault.message source = text ++ " (line " ++ toString place.line ++
          ", column " ++ toString place.column ++ ")" ∧
        (Text.lineOffset source place.line : Int) + place.column - 1 = position ∧
        ∀ other : Nat, Text.Location.of source other = place → other = position := by
  rcases located_of_error h with ⟨hsuffix, hdescribes⟩
  have hposition : fault.position? source = some (source.length - fault.rest.length) := by
    unfold Fault.position?
    rw [if_neg hcause]
  have hback := Text.lineOffset_location source (source.length - fault.rest.length)
  refine ⟨_, fault.cause.message, hposition, Nat.sub_le _ _, ?_, ?_, _, rfl, ?_, hback, ?_⟩
  · rw [drop_of_suffix hsuffix]
    exact hdescribes
  · rw [drop_of_suffix hsuffix]
    exact reports_message hdescribes hcause
  · unfold Fault.message
    rw [hposition]
    rfl
  · -- Both positions are found from the same line and column.
    intro other hplace
    have hforth := Text.lineOffset_location source other
    rw [hplace] at hforth
    omega

/-- The inner tag is closed by another name, on the second line; and a quote stands where an
    attribute should. -/
theorem fault_points_at_construct_mismatch :
    (let source := "<a>\n <b c></d>".toList
      let fault : Fault := ⟨.mismatchedTag "d" "b", "</d>".toList⟩
      readWithin 2 source = .error fault ∧
        fault.message source =
          "Closing tag </d> does not match opening tag <b> (line 2, column 7)" ∧
        ∃ position, fault.position? source = some position ∧
          "</".toList ++ "d".toList <+: source.drop position ∧ "d" ≠ "b") ∧
    (let source := "<a\n 'b'>".toList
      let fault : Fault := ⟨.strayInTag "a" (some '\''), "'b'>".toList⟩
      readWithin 2 source = .error fault ∧
        fault.message source = "Unexpected character \"'\" in tag <a> (line 2, column 2)" ∧
        ∃ position, fault.position? source = some position ∧
          (source.drop position).head? = some '\'') := by
  constructor
  · intro source fault
    have hread : readWithin 2 source = .error fault := by rfl
    rcases fault_points_at_construct hread (by decide) with
      ⟨position, text, hposition, -, hdescribes, -⟩
    exact ⟨hread, by decide +kernel, position, hposition, hdescribes⟩
  · intro source fault
    have hread : readWithin 2 source = .error fault := by rfl
    rcases fault_points_at_construct hread (by decide) with
      ⟨position, text, hposition, -, hdescribes, -⟩
    exact ⟨hread, by decide +kernel, position, hposition, hdescribes⟩

end Markup

end Afx
