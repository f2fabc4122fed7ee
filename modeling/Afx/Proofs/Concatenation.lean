import Afx.Proofs.Faults
import Afx.Proofs.Printing

/-!
# Sources One After Another

A source that is read is read the same in front of any other, and the other is read
as if nothing stood before it. Only where text meets text do the two run together,
as one text. This holds of sources that are refused as well: they are refused for
the same fault, in the same place of the second source.

The first source ends where the second starts if no text goes on there. This is how
the grammar is read in any place, so the text at the front of the second source is
first counted to the first one. Then all that was read of the first is done, at the
outermost level, below whatever the second opens. A turn looks only at the level
above, so `Progress.behind`, which puts values under all levels, goes through turns
and so through runs.

## Main definitions

* `mergeTexts`: Values one after another, with one text where two meet.
* `Turn.map`: A turn with its state and its result changed.
* `Progress.behind`: A state of reading with more values in front.

## Theorems

* `Loop.run_map`: What goes through a turn goes through a run.
* `behind_turn`: A turn does not look at the values in front.
* `derives_append_text`: Text behind a source joins the text at its end.
* `readWithin_append`: What is read of two sources one after another.
* `readWithin_compositional`: A source behind one that is read is read, or refused,
  as it is alone.
-/

namespace Afx

/-- A turn with its state and its result changed. -/
def Turn.map {σ α : Type} (f : σ → σ) (g : α → α) : Turn σ α → Turn σ α
  | .next state => .next (f state)
  | .stop result => .stop (g result)

/-- What goes through each turn goes through the whole run. -/
theorem Loop.run_map {σ ε α : Type} {loop : Loop σ ε α} {f : σ → σ} {g : α → α}
    (h : ∀ s, loop.turn (f s) = (loop.turn s).map (Turn.map f g)) (s : σ) :
    loop.run (f s) = (loop.run s).map g := by
  induction hw : loop.weight s using Nat.strongRecOn generalizing s with
  | ind n ih =>
      have hturn := h s
      cases ht : loop.turn s with
      | error e =>
          rw [ht] at hturn
          rw [run_of_error hturn, run_of_error ht]
          rfl
      | ok turned =>
          rw [ht] at hturn
          cases turned with
          | stop a =>
              rw [run_of_stop hturn, run_of_stop ht]
              rfl
          | next t =>
              rw [run_of_next hturn, run_of_next ht]
              exact ih _ (hw ▸ loop.lowers ht) t rfl

namespace Markup

/-! ## Values in front -/

/-- The values read since the innermost open tag and the open tags, with more values
    in front of all that was read at the outermost level. Values that were read are
    kept last first. -/
def putBelow (front : List Markup) : List Markup → List Opened → List Markup × List Opened
  | done, [] => (done ++ front.reverse, [])
  | done, tag :: outer =>
    let below := putBelow front tag.before outer
    (done, { tag with before := below.1 } :: below.2)

/-- A state of reading with more values in front. -/
def Progress.behind (front : List Markup) (p : Progress) : Progress :=
  let below := putBelow front p.done p.opened
  ⟨below.2, below.1, p.rest⟩

variable (front : List Markup) {limit : Nat}

theorem putBelow_cons (value : Markup) (done : List Markup) (opened : List Opened) :
    putBelow front (value :: done) opened =
      (value :: (putBelow front done opened).1, (putBelow front done opened).2) := by
  cases opened <;> rfl

theorem length_putBelow (done : List Markup) (opened : List Opened) :
    (putBelow front done opened).2.length = opened.length := by
  induction opened generalizing done with
  | nil => rfl
  | cons tag outer ih => simp [putBelow, ih tag.before]

theorem behind_add (p : Progress) (read : Except Fault (Markup × List Char)) :
    (p.behind front).add read =
      (p.add read).map (Turn.map (Progress.behind front) (front ++ ·)) := by
  cases read with
  | error fault => rfl
  | ok found =>
      -- The value comes on top of the innermost level, whichever that is.
      simp only [Progress.add, Progress.behind, Except.map, Turn.map, putBelow_cons]

theorem behind_finish (p : Progress) :
    (p.behind front).finish = p.finish.map (Turn.map (Progress.behind front) (front ++ ·)) := by
  rcases p with ⟨opened, done, rest⟩
  cases opened with
  | nil => simp [Progress.behind, Progress.finish, putBelow, Except.map, Turn.map]
  | cons tag outer => rfl

theorem behind_close (p : Progress) :
    (p.behind front).close = p.close.map (Turn.map (Progress.behind front) (front ++ ·)) := by
  rcases p with ⟨opened, done, rest⟩
  cases opened with
  | nil => rfl
  | cons tag outer =>
      -- The level below the closed tag becomes the innermost one.
      simp only [Progress.behind, Progress.close, putBelow]
      cases closingAt tag.name rest with
      | error fault => rfl
      | ok left => simp only [Except.map, Turn.map, Progress.behind, putBelow_cons]

theorem behind_enter (p : Progress) :
    (p.behind front).enter limit =
      (p.enter limit).map (Turn.map (Progress.behind front) (front ++ ·)) := by
  rcases p with ⟨opened, done, rest⟩
  -- Values in front open no tags, so both states are as far from the limit.
  simp only [Progress.behind, Progress.enter, length_putBelow]
  by_cases hfull : limit ≤ opened.length
  · rw [if_pos hfull, if_pos hfull]
    rfl
  · rw [if_neg hfull, if_neg hfull]
    cases openingAt rest with
    | error fault => rfl
    | ok tag =>
        -- A tag that stays open starts a level, and the innermost one becomes what is before it.
        by_cases hself : tag.selfClosing = true
        · simp only [hself, if_true, Except.map, Turn.map, Progress.behind, putBelow_cons]
        · simp only [hself, if_false, Except.map, Turn.map, Progress.behind, putBelow,
            Bool.false_eq_true]

/-- A turn does not look at the values in front, and leaves them there. -/
theorem behind_turn (p : Progress) :
    (p.behind front).turn limit =
      (p.turn limit).map (Turn.map (Progress.behind front) (front ++ ·)) := by
  -- What a turn does is decided by what is left of the source.
  have hrest : (p.behind front).rest = p.rest := rfl
  unfold Progress.turn
  rw [hrest]
  split
  · exact behind_finish front p
  · exact behind_add front p _
  · exact behind_close front p
  · exact behind_enter front p
  · exact behind_add front p _
  · exact behind_add front p _

/-- Values that are done at the outermost level come in front of what is read. -/
theorem documentLoop_behind (t : List Char) :
    (documentLoop limit).run ⟨[], front.reverse, t⟩ = (readWithin limit t).map (front ++ ·) :=
  @Loop.run_map _ _ _ (documentLoop limit) (Progress.behind front) (front ++ ·) (behind_turn front)
    ⟨[], [], t⟩

/-! ## Values one after another -/

/-- The values of two sources one after another. A text at the end of the first and
    one at the front of the second become one text. -/
def mergeTexts : List Markup → List Markup → List Markup
  | [.text first], .text second :: others => .text (first ++ second) :: others
  | [], others => others
  | value :: values, others => value :: mergeTexts values others

/-- Only a text that is the last value meets another. -/
theorem mergeTexts_cons {value : Markup} {values : List Markup}
    (h : isText value = true → values ≠ []) (others : List Markup) :
    mergeTexts (value :: values) others = value :: mergeTexts values others := by
  cases values with
  | nil =>
      cases value with
      | text raw => exact absurd rfl (h rfl)
      | _ => rfl
  | cons next values => simp [mergeTexts]

/-- Values by the last of them, which is a text or not. -/
theorem lastText_induction {motive : List Markup → Prop} (hnil : motive [])
    (htext : ∀ raw, motive [.text raw])
    (hcons : ∀ value values, (isText value = true → values ≠ []) → motive values →
      motive (value :: values)) (values : List Markup) : motive values := by
  induction values with
  | nil => exact hnil
  | cons value values ih =>
      by_cases hlast : isText value = true → values ≠ []
      · exact hcons value values hlast ih
      · rw [Classical.not_imp, not_not] at hlast
        rcases hlast with ⟨hvalue, rfl⟩
        cases value with
        | text raw => exact htext raw
        | _ => simp [isText] at hvalue

theorem mergeTexts_text (values : List Markup) (raw : String) (others : List Markup) :
    mergeTexts values (.text raw :: others) = mergeTexts values [.text raw] ++ others := by
  induction values using lastText_induction with
  | hnil => rfl
  | htext first => rfl
  | hcons value values hlast ih =>
      rw [mergeTexts_cons hlast, mergeTexts_cons hlast, ih, List.cons_append]

theorem mergeTexts_of_not_text {others : List Markup}
    (h : ∀ next ∈ others.head?, isText next = false) (values : List Markup) :
    mergeTexts values others = values ++ others := by
  induction values using lastText_induction with
  | hnil => rfl
  | htext first =>
      cases others with
      | nil => rfl
      | cons next others =>
          have hnext := h next rfl
          cases next with
          | text second => simp [isText] at hnext
          | _ => rfl
  | hcons value values hlast ih => rw [mergeTexts_cons hlast, ih, List.cons_append]

theorem nestingOf_mergeTexts (values : List Markup) (raw : String) :
    nestingOf (mergeTexts values [.text raw]) = nestingOf values := by
  induction values using lastText_induction with
  | hnil => rfl
  | htext first => rfl
  | hcons value values hlast ih => rw [mergeTexts_cons hlast, nestingOf, nestingOf, ih]

/-! ## Sources one after another -/

theorem nil_of_derives {s : List Char} (h : Derives s []) : s = [] := by
  cases h
  rfl

/-- Text behind a source that can be read joins the text at its end, if there is
    any. -/
theorem derives_append_text {s : List Char} {values : List Markup} (h : Derives s values)
    {w : List Char} (hne : w ≠ []) (hw : ∀ c ∈ w, c ≠ '<' ∧ c ≠ '\x7b') :
    Derives (s ++ w) (mergeTexts values [.text (String.ofList w)]) := by
  have hend : EndsText [] := by simp [EndsText]
  induction h with
  | nil =>
      have hone := Derives.text hne hw hend .nil
      rw [List.append_nil] at hone
      exact hone
  | comment hfirst _ ih =>
      rw [mergeTexts_cons (by simp [isText]), List.append_assoc]
      exact .comment hfirst ih
  | @text t rest values htne ht hends hrest ih =>
      by_cases hlast : values = []
      · -- Both texts are one.
        subst hlast
        rw [nil_of_derives hrest, List.append_nil]
        have hboth : ∀ c ∈ t ++ w, c ≠ '<' ∧ c ≠ '\x7b' := by
          intro c hc
          rcases List.mem_append.mp hc with hc | hc
          · exact ht c hc
          · exact hw c hc
        have hone := Derives.text (by simp [hne]) hboth hend .nil
        rw [List.append_nil, String.ofList_append] at hone
        exact hone
      · rw [mergeTexts_cons fun _ => hlast, List.append_assoc]
        refine .text htne ht ?_ ih
        -- What ended the first text still stands behind it.
        cases rest with
        | nil => exact absurd (derives_unique hrest .nil) hlast
        | cons c rest => exact fun d hd => hends d hd
  | @expression code rest values hcode _ ih =>
      rw [mergeTexts_cons (by simp [isText]), List.append_assoc, List.cons_append]
      exact .expression hcode ih
  | selfClosing hname hends ha hattributes _ ih =>
      rw [mergeTexts_cons (by simp [isText]), List.append_assoc]
      exact .selfClosing hname hends ha hattributes ih
  | element hname hends ha hattributes hinner hv _ _ ih =>
      rw [mergeTexts_cons (by simp [isText]), List.append_assoc]
      exact .element hname hends ha hattributes hinner hv ih

theorem readWithin_append_ends {s : List Char} {values : List Markup} (h : Derives s values)
    (hlimit : nestingOf values ≤ limit) {t : List Char} (hends : EndsText t) :
    readWithin limit (s ++ t) = (readWithin limit t).map (values ++ ·) := by
  rw [← documentLoop_behind values t]
  have happend := @documentLoop_append limit [] [] s values h t hends (by simpa using hlimit)
  rw [List.append_nil] at happend
  exact happend

theorem text_split (t : List Char) :
    ∃ w rest, t = w ++ rest ∧ (∀ c ∈ w, c ≠ '<' ∧ c ≠ '\x7b') ∧ EndsText rest := by
  cases t with
  | nil => exact ⟨[], [], rfl, by simp, by simp [EndsText]⟩
  | cons c t =>
      -- Text is read as far as it goes, unless there is none.
      by_cases hc : c ≠ '<' ∧ c ≠ '\x7b'
      · rcases @textAt_split c t hc.1 hc.2 with ⟨w, -, hw, hends, hsplit, -⟩
        exact ⟨w, _, hsplit, hw, hends⟩
      · refine ⟨[], c :: t, rfl, by simp, ?_⟩
        intro d hd
        rw [not_and_or, not_not, not_not] at hc
        simpa [← Option.some.inj hd] using hc

/-- What is read of two sources one after another, if the first can be read. -/
theorem readWithin_append {s : List Char} {values : List Markup}
    (hread : readWithin limit s = .ok values) (t : List Char) :
    readWithin limit (s ++ t) = (readWithin limit t).map (mergeTexts values) := by
  rcases derives_of_readWithin hread with ⟨h, hlimit⟩
  rcases text_split t with ⟨w, rest, rfl, hw, hends⟩
  by_cases hne : w = []
  · -- No text meets what the first source ends with.
    subst hne
    rw [List.nil_append, readWithin_append_ends h hlimit hends]
    cases hrest : readWithin limit rest with
    | error fault => rfl
    | ok others =>
        have hhead := isText_head_of_derives (derives_of_readWithin hrest).1 hends
        simp only [Except.map, mergeTexts_of_not_text hhead]
  · -- The text in front of the second source is read with the first, and alone.
    have hfirst := derives_append_text h hne hw
    have halone := derives_append_text .nil hne hw
    rw [← List.append_assoc, readWithin_append_ends hfirst (by rwa [nestingOf_mergeTexts]) hends]
    rw [List.nil_append] at halone
    rw [readWithin_append_ends halone (by simp [mergeTexts, nestingOf, nesting]) hends]
    cases readWithin limit rest with
    | error fault => rfl
    | ok others =>
        simp only [Except.map, mergeTexts, List.singleton_append]
        rw [mergeTexts_text values _ others]

/-- A source behind one that can be read is read as it is alone, except that texts that
    meet are one text. If it is refused, it is refused for the same cause, at the same
    place behind the first source. -/
theorem readWithin_compositional {s : List Char} {values : List Markup}
    (hread : readWithin limit s = .ok values) (t : List Char) :
    (∀ others, readWithin limit t = .ok others →
      readWithin limit (s ++ t) = .ok (mergeTexts values others)) ∧
    (∀ fault, readWithin limit t = .error fault →
      readWithin limit (s ++ t) = .error fault ∧
      fault.position? (s ++ t) = (fault.position? t).map (s.length + ·) ∧
      fault.message (s ++ t) = Text.annotated fault.cause.message (s ++ t)
        ((fault.position? t).map fun position => ((s.length + position : Nat) : Int))) := by
  have happend := readWithin_append hread t
  constructor
  · intro others hothers
    rw [happend, hothers]
    rfl
  · intro fault hfault
    have hposition : fault.position? (s ++ t) = (fault.position? t).map (s.length + ·) := by
      -- The fault lies in the second source, so its position is a proper difference there.
      have hlength := (located_of_error hfault).1.length_le
      unfold Fault.position?
      by_cases hcause : fault.cause = .nestedTooDeeply
      · rw [if_pos hcause, if_pos hcause]
        rfl
      · rw [if_neg hcause, if_neg hcause, List.length_append, Option.map_some]
        congr 1
        omega
    refine ⟨?_, hposition, ?_⟩
    · rw [happend, hfault]
      rfl
    · unfold Fault.message
      rw [hposition]
      cases fault.position? t <;> rfl

/-- Text meets text behind a tag, in front of a tag that can be read and of one that
    has no end. -/
theorem readWithin_compositional_text :
    readWithin 1 "a<b/>c".toList =
        .ok [.text "a", .element "b" true [] [], .text "c"] ∧
      readWithin 1 ("a<b/>c".toList ++ "d<e/>".toList) =
        .ok [.text "a", .element "b" true [] [], .text "cd", .element "e" true [] []] ∧
      readWithin 1 ("a<b/>c".toList ++ "d<e".toList) =
        .error ⟨.strayInTag "e" none, "<e".toList⟩ ∧
      (⟨.strayInTag "e" none, "<e".toList⟩ : Fault).position?
        ("a<b/>c".toList ++ "d<e".toList) = some 7 := by
  have hread : readWithin 1 "a<b/>c".toList =
      .ok [.text "a", .element "b" true [] [], .text "c"] := by
    rfl
  have hfault : readWithin 1 "d<e".toList = .error ⟨.strayInTag "e" none, "<e".toList⟩ := by
    rfl
  have hrefused := (readWithin_compositional hread "d<e".toList).2 _ hfault
  refine ⟨hread, ?_, hrefused.1, hrefused.2.1⟩
  exact (readWithin_compositional hread "d<e/>".toList).1
    [.text "d", .element "e" true [] []] rfl

end Markup

end Afx
