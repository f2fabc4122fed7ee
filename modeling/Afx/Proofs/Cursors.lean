import Afx.Markup.Cursor
import Afx.Proofs.Lexemes

/-!
# A Cursor Stays in Its Source

A cursor is asked for one thing after another, with counts and offsets that may be
any integers. A count that ends before the start of the source is counted back from
its end, so the way that a cursor moves need not resemble the count it was given.
Here is that no sequence of requests takes it out of its source or back in it, and
what each single request gives.

Every request moves the cursor forward over some of the characters before it, if it
moves it at all. What was passed over is then the part of the source between the two
positions, and all that has to be said about a request is how long this part is.

`Text.between` is the part of a text between two integers, said without a cursor. It
is the measure for what a count takes.

## Main definitions

* `Text.between`: The part of a text from one position to another.
* `Request.looks`: The requests that only look at the source.
* `Cursor.Lawful`: What a cursor in a source does at a request.

## Theorems

* `Cursor.between_advance`: What lies between two places of a cursor.
* `Cursor.between_count`: What a count takes, for every integer.
* `Cursor.perform_eq_advance`: A request moves the cursor forward, if at all.
* `Cursor.lawful_perform`: What each request does.
* `Cursor.source_performAll`, `Cursor.position_le_performAll`: What a sequence of
  requests keeps.
* `cursor_stays_in_source`: A cursor stays in its source, whatever it is asked for.
-/

namespace Afx

namespace Text

/-! ## Parts of a text -/

/-- The part of a text from one position to another. A negative position counts from
    the end, and one that lies outside of the text stands for the end it is nearest to. -/
def between (source : List Char) (start stop : Int) : List Char :=
  (before source stop).drop (before source start).length

/-- From a position in the text, what lies between is at the front of what is left. -/
theorem between_of_le {source : List Char} {start : Nat} (h : start ≤ source.length) (stop : Int) :
    between source start stop = (source.drop start).take ((before source stop).length - start) := by
  have hstop : ∃ place, before source stop = source.take place := by
    unfold before
    split <;> exact ⟨_, rfl⟩
  rcases hstop with ⟨place, hplace⟩
  rw [between, before_natCast, List.length_take_of_le h, hplace, List.drop_take,
    List.take_eq_take_iff, List.length_take, List.length_drop]
  omega

end Text

namespace Markup

namespace Cursor

variable (c : Cursor)

/-! ## Moving forward -/

theorem length_source : c.source.length = c.position + c.ahead.length := by
  simp [source, position]

theorem position_le_length : c.position ≤ c.source.length := by
  rw [length_source]
  exact Nat.le_add_right _ _

theorem drop_position : c.source.drop c.position = c.ahead := by
  simp [source, position]

theorem advance_zero : c.advance 0 = c := by
  simp [advance]

theorem position_advance (count : Nat) :
    (c.advance count).position = c.position + min count c.ahead.length := by
  simp [advance, position, Nat.add_comm]

/-- What lies between two places of a cursor is what it has moved over. -/
theorem between_advance (count : Nat) :
    Text.between c.source c.position (c.advance count).position = c.ahead.take count := by
  have hlength := c.length_source
  rw [Text.between_of_le c.position_le_length, Text.before_natCast, drop_position,
    List.length_take, position_advance]
  rw [List.take_eq_take_iff]
  omega

/-- The place that an integer stands for, in a text of which it cuts off the rest. -/
theorem length_before (source : List Char) (index : Int) :
    (Text.before source index).length =
      min ((fromStart? source.length index).getD 0) source.length := by
  unfold Text.before fromStart?
  split
  · rw [List.length_take, Option.getD_some]
  · -- Counted from the end, the place is in the text, or the start stands for it.
    rw [List.length_take]
    split
    · rw [Option.getD_some]
      omega
    · rw [Option.getD_none]
      omega

/-- A count takes what lies between the cursor and the place it ends at, whichever
    integer it is. -/
theorem between_count (count : Int) :
    Text.between c.source c.position (c.position + count) = c.ahead.take (c.reach count) := by
  have hlength := c.length_source
  rw [Text.between_of_le c.position_le_length, drop_position, length_before,
    List.take_eq_take_iff]
  unfold reach
  omega

/-! ## Requests -/

end Cursor

/-- The request only looks at the source. -/
def Request.looks : Request → Bool
  | .consume _ => false
  | .expect _ _ => false
  | .skipBlank => false
  | _ => true

namespace Cursor

/-- What a cursor in a source does at a request. -/
structure Lawful (source : List Char) (c : Cursor) (request : Request) (answer : Answer)
    (next : Cursor) : Prop where
  source_eq : next.source = source
  onward : c.position ≤ next.position
  inside : next.position ≤ source.length
  /-- A count takes what lies between the two places of the cursor, and it takes as much
      as lies between the first one and the place that the count leads to. -/
  taken : ∀ count, request = .consume count →
    answer = .text (String.ofList (Text.between source c.position next.position)) ∧
    Text.between source c.position next.position =
      Text.between source c.position (c.position + count)
  /-- A text that is expected is passed over if it stands there, except at the end. -/
  expected : ∀ text context, request = .expect text context →
    (answer = .done ↔ c.position < source.length ∧ text.toList <+: source.drop c.position) ∧
    (answer = .done → Text.between source c.position next.position = text.toList)
  /-- Blanks are passed over, all that stand there and nothing else. -/
  skipped : request = .skipBlank →
    Blanks (Text.between source c.position next.position) ∧
    ∀ b ∈ source[next.position]?, Text.isBlank b = false
  unmoved : answer.isFailure = true ∨ request.looks = true → next = c

variable (c : Cursor)

/-- An expected text is found if it stands before the cursor, which is then moved behind
    it. At the end not even the empty text is found. -/
theorem expect_cases (text context : String) :
    ((c.position < c.source.length ∧ text.toList <+: c.ahead) ∧
      c.expect text context = .ok (c.advance text.length)) ∨
    (¬ (c.position < c.source.length ∧ text.toList <+: c.ahead) ∧
      ∃ fault, c.expect text context = .error fault) := by
  have hend : c.isEnd = true ↔ ¬ c.position < c.source.length := by
    rw [length_source, isEnd, List.isEmpty_iff, ← List.length_eq_zero_iff]
    omega
  have hrefused : (c.isEnd || !c.startsWith text) = true ↔
      ¬ (c.position < c.source.length ∧ text.toList <+: c.ahead) := by
    rw [Bool.or_eq_true, hend, Bool.not_eq_true', Bool.eq_false_iff, startsWith, Ne,
      List.isPrefixOf_iff_prefix, not_and_or]
  unfold expect
  by_cases hfound : c.position < c.source.length ∧ text.toList <+: c.ahead
  · exact Or.inl ⟨hfound, if_neg fun h => hrefused.mp h hfound⟩
  · exact Or.inr ⟨hfound, _, if_pos (hrefused.mpr hfound)⟩

/-- A request moves the cursor forward over some characters, or over none. -/
theorem perform_eq_advance (request : Request) :
    ∃ count, (c.perform request).2 = c.advance count := by
  have hsame : ∃ count, c = c.advance count := ⟨0, c.advance_zero.symm⟩
  cases request with
  | consume count => exact ⟨c.reach count, rfl⟩
  | skipBlank => exact ⟨_, rfl⟩
  | peek offset =>
      simp only [perform]
      split <;> exact hsame
  | expect text context =>
      rcases c.expect_cases text context with ⟨-, hok⟩ | ⟨-, fault, hfault⟩
      · exact ⟨text.length, by simp only [perform, hok]⟩
      · simpa only [perform, hfault] using hsame
  | _ => exact hsame

theorem perform_unmoved {request : Request}
    (h : (c.perform request).1.isFailure = true ∨ request.looks = true) :
    (c.perform request).2 = c := by
  cases request with
  | consume count => simp [perform, Answer.isFailure, Request.looks] at h
  | skipBlank => simp [perform, Answer.isFailure, Request.looks] at h
  | peek offset =>
      simp only [perform]
      split <;> rfl
  | expect text context =>
      rcases c.expect_cases text context with ⟨-, hok⟩ | ⟨-, fault, hfault⟩
      · simp [perform, hok, Answer.isFailure, Request.looks] at h
      · simp only [perform, hfault]
  | _ => rfl

theorem perform_expect (text context : String) :
    ((c.perform (.expect text context)).1 = .done ↔
      c.position < c.source.length ∧ text.toList <+: c.ahead) ∧
    ((c.perform (.expect text context)).1 = .done →
      (c.perform (.expect text context)).2 = c.advance text.length) := by
  rcases c.expect_cases text context with ⟨hfound, hok⟩ | ⟨hfound, fault, hfault⟩
  · simp [perform, hok, hfound]
  · simp [perform, hfault, hfound]

/-- Blanks are passed over as far as they go. -/
theorem perform_skipBlank :
    Blanks (Text.between c.source c.position (c.perform .skipBlank).2.position) ∧
    ∀ b ∈ c.source[(c.perform .skipBlank).2.position]?, Text.isBlank b = false := by
  have hpassed : (c.perform .skipBlank).2 =
      c.advance (c.ahead.takeWhile Text.isBlank).length := rfl
  have hrun : c.ahead.take (c.ahead.takeWhile Text.isBlank).length =
      c.ahead.takeWhile Text.isBlank :=
    (List.prefix_iff_eq_take.mp (List.takeWhile_prefix _)).symm
  have hleft : (c.perform .skipBlank).2.ahead = Text.skipBlank c.ahead := by
    have hsplit := List.take_append_drop (c.ahead.takeWhile Text.isBlank).length c.ahead
    rw [hrun] at hsplit
    exact List.append_cancel_left (hsplit.trans List.takeWhile_append_dropWhile.symm)
  constructor
  · rw [hpassed, between_advance, hrun]
    exact fun b hb => List.mem_takeWhile_imp hb
  · -- What stands there is at the front of what is left, and is no blank.
    intro b hb
    rcases skipBlank_split c.ahead with ⟨-, -, -, hhead⟩
    refine hhead b ?_
    rw [← hleft, ← drop_position, List.head?_drop, hpassed, source_advance]
    rwa [hpassed] at hb

/-- What a request does, of every cursor in its own source. -/
theorem lawful_perform (request : Request) :
    Lawful c.source c request (c.perform request).1 (c.perform request).2 := by
  rcases c.perform_eq_advance request with ⟨moved, hmoved⟩
  have hsource : (c.perform request).2.source = c.source := by
    rw [hmoved, source_advance]
  refine ⟨hsource, ?_, ?_, ?_, ?_, ?_, c.perform_unmoved⟩
  · rw [hmoved, position_advance]
    exact Nat.le_add_right _ _
  · rw [← hsource]
    exact position_le_length _
  · rintro count rfl
    have htaken := c.between_advance (c.reach count)
    exact ⟨congrArg Answer.text (congrArg String.ofList htaken.symm),
      htaken.trans (c.between_count count).symm⟩
  · rintro text context rfl
    rcases c.perform_expect text context with ⟨hiff, hnext⟩
    rw [drop_position]
    refine ⟨hiff, fun hdone => ?_⟩
    rw [hnext hdone, between_advance, ← String.length_toList]
    exact (List.prefix_iff_eq_take.mp (hiff.mp hdone).2).symm
  · rintro rfl
    exact c.perform_skipBlank

/-! ## Sequences of requests -/

theorem source_performAll (requests : List Request) :
    (c.performAll requests).source = c.source := by
  unfold performAll
  induction requests generalizing c with
  | nil => rfl
  | cons request others ih =>
      rw [List.foldl_cons, ih]
      exact (c.lawful_perform request).source_eq

theorem position_le_performAll (requests : List Request) :
    c.position ≤ (c.performAll requests).position := by
  unfold performAll
  induction requests generalizing c with
  | nil => exact Nat.le_refl _
  | cons request others ih =>
      rw [List.foldl_cons]
      exact Nat.le_trans (c.lawful_perform request).onward (ih _)

end Cursor

/-- A cursor that starts in a source stays in it and never goes back, whatever it is
    asked for, in whichever order and with whichever integers. -/
theorem cursor_stays_in_source (source : List Char) :
    (Cursor.start source).position = 0 ∧
    ∀ requests c, (Cursor.start source).performAll requests = c →
      c.source = source ∧ c.position ≤ source.length ∧
      (∀ more, c.position ≤ (c.performAll more).position) ∧
      ∀ request answer next, c.perform request = (answer, next) →
        c.Lawful source request answer next := by
  refine ⟨rfl, ?_⟩
  rintro requests c rfl
  have hsource : ((Cursor.start source).performAll requests).source = source :=
    Cursor.source_performAll _ requests
  have hinside := Cursor.position_le_length ((Cursor.start source).performAll requests)
  rw [hsource] at hinside
  refine ⟨hsource, hinside, Cursor.position_le_performAll _, ?_⟩
  intro request answer next hperform
  have hlawful := Cursor.lawful_perform ((Cursor.start source).performAll requests) request
  rw [hsource, hperform] at hlawful
  exact hlawful

/-- A count of minus two that ends before the start is counted back from the end, and
    takes four characters. -/
theorem cursor_stays_in_source_wrapped :
    (Cursor.start "abcdef".toList).performAll [.peek 5, .consume 1] = ⟨['a'], "bcdef".toList⟩ ∧
      (⟨['a'], "bcdef".toList⟩ : Cursor).perform (.consume (-2)) =
        (.text "bcde", ⟨"edcba".toList, ['f']⟩) ∧
      Text.between "abcdef".toList 1 5 = Text.between "abcdef".toList 1 (1 + -2) := by
  have hstart : (Cursor.start "abcdef".toList).performAll [.peek 5, .consume 1] =
      ⟨['a'], "bcdef".toList⟩ := by decide
  have hcount : (⟨['a'], "bcdef".toList⟩ : Cursor).perform (.consume (-2)) =
      (.text "bcde", ⟨"edcba".toList, ['f']⟩) := by decide
  have hlawful := ((cursor_stays_in_source _).2 _ _ hstart).2.2.2 _ _ _ hcount
  exact ⟨hstart, hcount, (hlawful.taken (-2) rfl).2⟩

end Markup

end Afx
