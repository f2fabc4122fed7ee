import Afx.Proofs.Grammar

/-!
# Documents Are Read by the Grammar

The reader of documents is one loop over a stack of open tags, and the grammar
knows neither loops nor stacks. Two arguments connect them, one for each
direction.

A text that derives values is read as these values wherever it stands: behind
any values that are done, within any tags that are open, and in front of any
text that no run of text goes on into. This is `documentLoop_append`, an
induction on the derivation in which a tag with content spends three steps: it
is opened, its content is read by the induction hypothesis with one more tag
open, and it is closed.

Conversely a run is followed backwards from its end. What is left of a source
cannot be described by the grammar alone while tags are open, because their
closing tags are in it. `Completes` says what it looks like instead: for every
open tag some content and its closing tag, and content to the end for the
document. Every turn carries this description back over the piece it took.

The limit on the number of open tags appears on both sides. A derivation fits
if its values do not nest too deeply, and the reader never refuses such a
source for another reason.

## Main definitions

* `Completes`: What is left of a source whose reading succeeds.

## Theorems

* `documentLoop_append`: What the grammar derives is read.
* `turn_eq_stop`: Where the loop over a document stops.
* `completes_of_next`, `completes_of_stop`: What is read has the form that
  `Completes` describes.
* `readWithin_of_derives`, `derives_of_readWithin`: Both directions for whole
  documents.
* `readWithin_eq_or`: A higher limit only helps against too many open tags.
* `readWithin_iff_derives`: A document is read exactly as the grammar derives it.
-/

namespace Afx

namespace Loop

variable {σ ε α : Type}

/-- Two loops that take the same turns, except where the first one gives up for
    a reason of its own, have the same results up to that. -/
theorem run_eq_or {loop other : Loop σ ε α} {own : ε → Prop}
    (h : ∀ s, loop.turn s = other.turn s ∨ ∃ e, own e ∧ loop.turn s = .error e) (s : σ) :
    loop.run s = other.run s ∨ ∃ e, own e ∧ loop.run s = .error e := by
  induction hw : loop.weight s using Nat.strongRecOn generalizing s with
  | ind n ih =>
      rcases h s with hsame | ⟨e, he, hturn⟩
      · cases ht : loop.turn s with
        | error e => exact Or.inl (by rw [run_of_error ht, run_of_error (hsame ▸ ht)])
        | ok turned =>
            cases turned with
            | stop a => exact Or.inl (by rw [run_of_stop ht, run_of_stop (hsame ▸ ht)])
            | next t =>
                have ht' : other.turn s = .ok (.next t) := hsame ▸ ht
                rw [run_of_next ht, run_of_next ht']
                exact ih _ (hw ▸ loop.lowers ht) t rfl
      · exact Or.inr ⟨e, he, run_of_error hturn⟩

end Loop

namespace Markup

/-! ## One piece of a document -/

variable {limit : Nat} {opened : List Opened} {done : List Markup}

theorem documentLoop_comment {t : List Char} (ht : ¬ "-->".toList <:+: t) (rest : List Char) :
    (documentLoop limit).run ⟨opened, done, "<!--".toList ++ t ++ "-->".toList ++ rest⟩ =
      (documentLoop limit).run ⟨opened, .comment (String.ofList t) :: done, rest⟩ := by
  apply Loop.run_of_next
  have hread := splitAtMark_commentEnd ht [] rest
  simp only [String.reduceToList, List.cons_append, List.nil_append, List.append_assoc,
    List.reverse_nil] at hread ⊢
  simp [documentLoop, Progress.turn, Progress.commentAt, hread, Progress.add]

theorem documentLoop_expression {code : List Char} (hcode : Code code) (rest : List Char) :
    (documentLoop limit).run ⟨opened, done, '\x7b' :: code ++ '\x7d' :: rest⟩ =
      (documentLoop limit).run ⟨opened, .expression (String.ofList code) :: done, rest⟩ := by
  apply Loop.run_of_next
  have hread := expressionAt_append hcode rest
  simp only [List.cons_append] at hread ⊢
  simp [documentLoop, Progress.turn, hread, Progress.add]

theorem textAt_append {t rest : List Char} (ht : ∀ c ∈ t, c ≠ '<' ∧ c ≠ '\x7b')
    (hends : EndsText rest) : Progress.textAt (t ++ rest) = (.text (String.ofList t), rest) := by
  have hall : ∀ c ∈ t, (c != '<' && c != '\x7b') = true := by
    intro c hc
    simpa using ht c hc
  rw [Progress.textAt, List.takeWhile_append_of_pos hall, List.dropWhile_append_of_pos hall]
  cases rest with
  | nil => simp
  | cons c rest => rcases hends c (by simp) with rfl | rfl <;> simp

theorem documentLoop_text {t rest : List Char} (hne : t ≠ [])
    (ht : ∀ c ∈ t, c ≠ '<' ∧ c ≠ '\x7b') (hends : EndsText rest) :
    (documentLoop limit).run ⟨opened, done, t ++ rest⟩ =
      (documentLoop limit).run ⟨opened, .text (String.ofList t) :: done, rest⟩ := by
  apply Loop.run_of_next
  have hread := textAt_append ht hends
  cases t with
  | nil => exact absurd rfl hne
  | cons c t =>
      rcases ht c (by simp) with ⟨hopen, hbrace⟩
      simp only [List.cons_append] at hread ⊢
      simp only [documentLoop, Progress.turn]
      split
      · rename_i heq
        simp at heq
      · rename_i heq
        exact absurd (List.cons.inj heq).1 hopen
      · rename_i heq
        exact absurd (List.cons.inj heq).1 hopen
      · rename_i heq
        exact absurd (List.cons.inj heq).1 hopen
      · rename_i heq
        exact absurd (List.cons.inj heq).1 hbrace
      · rw [hread, Progress.add]

/-- A tag is opened where its name follows the angle bracket directly: neither a
    comment nor a closing tag starts with a name. -/
theorem documentLoop_turn_enter {n : List Char} (hname : IsName n) (s : List Char) :
    (documentLoop limit).turn ⟨opened, done, '<' :: n ++ s⟩ =
      Progress.enter limit ⟨opened, done, '<' :: n ++ s⟩ := by
  cases n with
  | nil => exact absurd rfl hname.1
  | cons c n =>
      simp only [documentLoop, Progress.turn, List.cons_append]
      split
      · rename_i heq
        simp at heq
      · rename_i heq
        exact absurd (List.cons.inj heq).2 (hname.append_ne rfl s _)
      · rename_i heq
        exact absurd (List.cons.inj heq).2 (hname.append_ne rfl s _)
      · rfl
      · rename_i heq
        simp at heq
      · rename_i hlt _
        exact absurd rfl (hlt _)

theorem documentLoop_selfClosing {n w a : List Char} {attributes : List Markup} (hname : IsName n)
    (hends : EndsName (w ++ a)) (hw : Blanks w) (ha : DerivesAttributes a attributes)
    (hlimit : opened.length < limit) (rest : List Char) :
    (documentLoop limit).run ⟨opened, done, '<' :: n ++ w ++ a ++ "/>".toList ++ rest⟩ =
      (documentLoop limit).run
        ⟨opened, .element (String.ofList n) true attributes [] :: done, rest⟩ := by
  apply Loop.run_of_next
  have hread := openingAt_append hname hends hw ha true rest
  simp only [tagEnd, if_true, List.append_assoc] at hread ⊢
  rw [documentLoop_turn_enter hname, Progress.enter, if_neg (by simpa using hlimit), hread]
  simp

theorem documentLoop_open {n w a : List Char} {attributes : List Markup} (hname : IsName n)
    (hends : EndsName (w ++ a)) (hw : Blanks w) (ha : DerivesAttributes a attributes)
    (hlimit : opened.length < limit) (rest : List Char) :
    ∃ start, (documentLoop limit).run ⟨opened, done, '<' :: n ++ w ++ a ++ ">".toList ++ rest⟩ =
      (documentLoop limit).run
        ⟨⟨String.ofList n, attributes, done, start⟩ :: opened, [], rest⟩ := by
  refine ⟨'<' :: n ++ w ++ a ++ ">".toList ++ rest, Loop.run_of_next ?_⟩
  have hread := openingAt_append hname hends hw ha false rest
  simp only [tagEnd, Bool.false_eq_true, if_false, List.append_assoc] at hread ⊢
  rw [documentLoop_turn_enter hname, Progress.enter, if_neg (by simpa using hlimit), hread]
  simp

theorem documentLoop_close {n v : List Char} {attributes before : List Markup} {start : List Char}
    (hname : IsName n) (hv : Blanks v) (rest : List Char) :
    (documentLoop limit).run ⟨⟨String.ofList n, attributes, before, start⟩ :: opened, done,
        "</".toList ++ n ++ v ++ ">".toList ++ rest⟩ =
      (documentLoop limit).run
        ⟨opened, .element (String.ofList n) false attributes done.reverse :: before, rest⟩ := by
  apply Loop.run_of_next
  have hread := closingAt_append hname hv rest
  simp only [String.reduceToList, List.cons_append, List.nil_append, List.append_assoc] at hread ⊢
  simp [documentLoop, Progress.turn, Progress.close, hread]

/-! ## What the grammar derives is read -/

theorem endsText_append {s t : List Char} (hs : EndsText s) (ht : EndsText t) :
    EndsText (s ++ t) := by
  intro c hc
  cases s with
  | nil => exact ht c (by simpa using hc)
  | cons d s => exact hs c (by simpa using hc)

/-- What the grammar derives is read, wherever it stands. -/
theorem documentLoop_append {s : List Char} {values : List Markup} (h : Derives s values)
    {rest : List Char} (hends : EndsText rest)
    (hlimit : opened.length + nestingOf values ≤ limit) :
    (documentLoop limit).run ⟨opened, done, s ++ rest⟩ =
      (documentLoop limit).run ⟨opened, values.reverse ++ done, rest⟩ := by
  induction h generalizing opened done rest with
  | nil => simp
  | comment hfirst _ ih =>
      simp only [nestingOf, nesting, Nat.zero_max] at hlimit
      rw [List.append_assoc, documentLoop_comment hfirst, ih hends hlimit]
      simp
  | text hne ht hnext _ ih =>
      simp only [nestingOf, nesting, Nat.zero_max] at hlimit
      rw [List.append_assoc, documentLoop_text hne ht (endsText_append hnext hends),
        ih hends hlimit]
      simp
  | @expression code after values hcode _ ih =>
      simp only [nestingOf, nesting, Nat.zero_max] at hlimit
      have hread := @documentLoop_expression limit opened done code hcode (after ++ rest)
      simp only [List.append_assoc, List.cons_append] at hread ⊢
      rw [hread, ih hends hlimit]
      simp
  | selfClosing hname hendsName hw ha _ ih =>
      simp only [nestingOf, nesting] at hlimit
      rw [List.append_assoc, documentLoop_selfClosing hname hendsName hw ha (by omega),
        ih hends (by omega)]
      simp
  | @element n w a inner v after attributes children values hname hendsName hw ha _ hv _ ihinner
      ih =>
      simp only [nestingOf, nesting] at hlimit
      -- The tag is opened, its content is read within it, and it is closed.
      have hopen := @documentLoop_open limit opened done n w a attributes hname hendsName hw ha
        (by omega)
        (inner ++ ("</".toList ++ n ++ v ++ ">".toList ++ (after ++ rest)))
      rcases hopen with ⟨start, hopen⟩
      -- No text in the content goes on into the closing tag.
      have hclosing : EndsText ("</".toList ++ n ++ v ++ ">".toList ++ (after ++ rest)) := by
        intro c hc
        simp at hc
        exact Or.inl hc.symm
      rw [ihinner hclosing (by simp only [List.length_cons]; omega),
        documentLoop_close hname hv, ih hends (by omega)] at hopen
      simp only [List.append_assoc] at hopen ⊢
      rw [hopen]
      simp

/-! ## What is read has the form of the grammar -/

/-- What is left of a source whose reading gives these values: content and a
    closing tag for every open tag, and content to the end. -/
def Completes (limit : Nat) :
    List Opened → List Markup → List Char → List Markup → Prop
  | [], done, rest, values =>
    ∃ more, Derives rest more ∧ nestingOf more ≤ limit ∧ values = done.reverse ++ more
  | tag :: outer, done, rest, values =>
    ∃ inner more v after, Derives inner more ∧ outer.length + 1 + nestingOf more ≤ limit ∧
      Blanks v ∧ rest = inner ++ ("</".toList ++ tag.name.toList ++ v ++ ">".toList ++ after) ∧
      Completes limit outer
        (.element tag.name false tag.attributes (done.reverse ++ more) :: tag.before) after values

/-- A piece in front of what is left belongs to the content that comes first. -/
theorem completes_cons {piece : List Char} {value : Markup} {rest : List Char}
    {values : List Markup}
    (hpiece : ∀ inner more after, rest = inner ++ after → Derives inner more →
      Derives (piece ++ inner) (value :: more))
    (hlimit : opened.length + nesting value ≤ limit)
    (h : Completes limit opened (value :: done) rest values) :
    Completes limit opened done (piece ++ rest) values := by
  cases opened with
  | nil =>
      -- No tag is open, so what is left is content to the end.
      rcases h with ⟨more, hmore, hfits, hvalues⟩
      refine ⟨value :: more, hpiece rest more [] (by simp) hmore, ?_, by simp [hvalues]⟩
      rw [List.length_nil] at hlimit
      rw [nestingOf]
      omega
  | cons tag outer =>
      rcases h with ⟨inner, more, v, after, hmore, hfits, hv, hrest, hafter⟩
      refine ⟨piece ++ inner, value :: more, v, after, hpiece inner more _ hrest hmore, ?_, hv,
        by simp [hrest], by simpa using hafter⟩
      rw [List.length_cons] at hlimit
      rw [nestingOf]
      omega

theorem endsText_of_append {s t : List Char} (h : EndsText (s ++ t)) : EndsText s := by
  intro c hc
  cases s with
  | nil => simp at hc
  | cons d s => exact h c (by simpa using hc)

/-- A comment is read up to its first end mark. -/
theorem commentAt_eq_ok {s rest : List Char} {value : Markup}
    (h : Progress.commentAt ('<' :: '!' :: '-' :: '-' :: s) = .ok (value, rest)) :
    ∃ t, ¬ "-->".toList <:+: t ∧ s = t ++ "-->".toList ++ rest ∧
      value = .comment (String.ofList t) := by
  simp only [Progress.commentAt, List.drop_succ_cons, List.drop_zero] at h
  split at h
  · rename_i content left hm
    simp only [Except.ok.injEq, Prod.mk.injEq] at h
    rcases splitAtMark_eq_some (by decide) hm with ⟨t, ht, hs, hfirst⟩
    rw [List.reverse_nil, List.nil_append] at ht
    subst ht
    exact ⟨content, hfirst, by rw [hs, h.2], h.1.symm⟩
  · simp at h

/-- Text is read as far as it goes. -/
theorem textAt_split {c : Char} {s : List Char} (hopen : c ≠ '<') (hbrace : c ≠ '\x7b') :
    ∃ t, t ≠ [] ∧ (∀ d ∈ t, d ≠ '<' ∧ d ≠ '\x7b') ∧ EndsText (Progress.textAt (c :: s)).2 ∧
      c :: s = t ++ (Progress.textAt (c :: s)).2 ∧
      (Progress.textAt (c :: s)).1 = .text (String.ofList t) := by
  refine ⟨(c :: s).takeWhile fun d => d != '<' && d != '\x7b', ?_, ?_, ?_, ?_, rfl⟩
  · simp [hopen, hbrace]
  · intro d hd
    simpa using List.mem_takeWhile_imp hd
  · intro d hd
    have hnot := List.head?_dropWhile_not (fun d => d != '<' && d != '\x7b') (c :: s)
    rw [Progress.textAt] at hd
    rw [Option.mem_def.mp hd] at hnot
    simp at hnot
    by_cases hlt : d = '<'
    · exact Or.inl hlt
    · exact Or.inr (hnot hlt)
  · exact (List.takeWhile_append_dropWhile).symm

theorem eq_of_add {p next : Progress} {read : Except Fault (Markup × List Char)}
    (h : p.add read = .ok (.next next)) :
    ∃ value rest, read = .ok (value, rest) ∧ next = ⟨p.opened, value :: p.done, rest⟩ := by
  cases read with
  | error fault => simp [Progress.add] at h
  | ok found =>
      simp only [Progress.add, Except.ok.injEq, Turn.next.injEq] at h
      exact ⟨found.1, found.2, rfl, h.symm⟩

/-- A closing tag carries the description of what is left back: the tag that it
    closes has no more content. -/
theorem completes_of_close {s : List Char} {next : Progress} {values : List Markup}
    (h : Progress.close ⟨opened, done, '<' :: '/' :: s⟩ = .ok (.next next))
    (hopened : opened.length ≤ limit)
    (hnext : next.opened.length ≤ limit →
      Completes limit next.opened next.done next.rest values) :
    Completes limit opened done ('<' :: '/' :: s) values := by
  cases opened with
  | nil => simp [Progress.close] at h
  | cons tag outer =>
      simp only [Progress.close] at h
      cases hc : closingAt tag.name ('<' :: '/' :: s) with
      | error fault => rw [hc] at h; simp at h
      | ok after =>
          rw [hc] at h
          simp only [Except.ok.injEq, Turn.next.injEq] at h
          subst h
          rw [List.length_cons] at hopened
          -- Nothing stands between here and the closing tag.
          rw [← String.ofList_toList (s := tag.name)] at hc
          rcases closingAt_eq_ok hc with ⟨v, hv, rfl⟩
          refine ⟨[], [], v, after, .nil, by rw [nestingOf]; omega, hv, by simp, ?_⟩
          simpa using hnext (by simp only; omega)

/-- An opening tag carries the description of what is left back. If it is not
    self-closing, what is left starts with its content and its closing tag. -/
theorem completes_of_enter {s : List Char} {next : Progress} {values : List Markup}
    (h : Progress.enter limit ⟨opened, done, '<' :: s⟩ = .ok (.next next))
    (hnext : next.opened.length ≤ limit →
      Completes limit next.opened next.done next.rest values) :
    Completes limit opened done ('<' :: s) values := by
  by_cases hfull : limit ≤ opened.length
  · simp [Progress.enter, hfull] at h
  · rw [Progress.enter, if_neg hfull] at h
    cases ho : openingAt ('<' :: s) with
    | error fault => simp only [ho] at h; simp at h
    | ok tag =>
        simp only [ho] at h
        rcases openingAt_eq_ok ho with ⟨n, w, a, hname, hends, hw, ha, htag, rfl⟩
        cases hself : tag.selfClosing with
        | true =>
            -- The whole tag is the piece that was taken.
            simp only [hself, if_true, Except.ok.injEq, Turn.next.injEq] at h
            subst h
            have hpiece : ∀ inner more after, tag.rest = inner ++ after → Derives inner more →
                Derives ('<' :: n ++ w ++ a ++ "/>".toList ++ inner)
                  (.element tag.name true tag.attributes [] :: more) := by
              intro inner more after _ hmore
              rw [htag]
              exact .selfClosing hname hends hw ha hmore
            have hback := completes_cons hpiece (by simp only [nesting, nestingOf]; omega)
              (hnext (by simp only; omega))
            simpa [tagEnd] using hback
        | false =>
            simp only [hself, Bool.false_eq_true, if_false, Except.ok.injEq, Turn.next.injEq] at h
            subst h
            -- What is left begins with the content of this tag, and the piece ends with
            -- the closing tag behind it.
            rcases hnext (by simp only [List.length_cons]; omega) with
              ⟨inner, children, v, after, hinner, hfits, hv, hrest, hafter⟩
            have hpiece : ∀ inner' more after', after = inner' ++ after' → Derives inner' more →
                Derives ('<' :: n ++ w ++ a ++ ">".toList ++ inner ++ "</".toList ++ n ++ v ++
                  ">".toList ++ inner')
                (.element tag.name false tag.attributes children :: more) := by
              intro inner' more after' _ hmore
              rw [htag]
              exact .element hname hends hw ha hinner hv hmore
            have hback := completes_cons hpiece (by simp only [nesting]; omega) hafter
            simp only at hrest
            rw [hrest, htag]
            simpa [tagEnd] using hback

theorem completes_of_next {p next : Progress} {values : List Markup}
    (h : p.turn limit = .ok (.next next)) (hopened : p.opened.length ≤ limit)
    (hnext : next.opened.length ≤ limit →
      Completes limit next.opened next.done next.rest values) :
    Completes limit p.opened p.done p.rest values := by
  rcases p with ⟨opened, done, rest⟩
  simp only at hopened
  simp only [Progress.turn] at h
  split at h
  · -- The end of the source is no turn that goes on.
    simp only [Progress.finish] at h
    split at h <;> simp at h
  · rcases eq_of_add h with ⟨value, after, hread, rfl⟩
    rcases commentAt_eq_ok hread with ⟨t, hfirst, rfl, rfl⟩
    have hback := completes_cons (fun _ _ _ _ hmore => .comment hfirst hmore)
      (by simpa [nesting] using hopened) (hnext hopened)
    simpa using hback
  · exact completes_of_close h hopened hnext
  · exact completes_of_enter h hnext
  · rcases eq_of_add h with ⟨value, after, hread, rfl⟩
    rcases expressionAt_eq_ok hread with ⟨code, hcode, rfl, rfl⟩
    have hpiece : ∀ inner more after', after = inner ++ after' → Derives inner more →
        Derives ('\x7b' :: code ++ ['\x7d'] ++ inner)
          (.expression (String.ofList code) :: more) := by
      intro inner more after' _ hmore
      have := Derives.expression hcode hmore
      simpa using this
    have hback := completes_cons hpiece (by simpa [nesting] using hopened) (hnext hopened)
    simpa using hback
  · -- Text starts with a character that starts nothing else.
    rename_i hnil _ _ hopen hbrace
    rcases eq_of_add h with ⟨value, after, hread, rfl⟩
    cases rest with
    | nil => exact absurd rfl hnil
    | cons c s =>
        have hlt : c ≠ '<' := by rintro rfl; exact hopen s rfl
        have hbr : c ≠ '\x7b' := by rintro rfl; exact hbrace s rfl
        rcases textAt_split (s := s) hlt hbr with ⟨t, hne, ht, hends, hsplit, hvalue⟩
        simp only [Except.ok.injEq, Prod.ext_iff] at hread
        rw [hread.2] at hsplit hends
        rw [hread.1] at hvalue
        subst hvalue
        have hpiece : ∀ inner more after', after = inner ++ after' → Derives inner more →
            Derives (t ++ inner) (.text (String.ofList t) :: more) := by
          intro inner more after' hafter hmore
          rw [hafter] at hends
          exact .text hne ht (endsText_of_append hends) hmore
        simp only
        rw [hsplit]
        exact completes_cons hpiece (by simpa [nesting] using hopened) (hnext hopened)

/-- Only the end of the source stops the loop, and only outside of all tags. -/
theorem turn_eq_stop {p : Progress} {values : List Markup}
    (h : p.turn limit = .ok (.stop values)) :
    p.opened = [] ∧ p.rest = [] ∧ values = p.done.reverse := by
  have hadd : ∀ read, p.add read ≠ .ok (.stop values) := by
    intro read
    cases read <;> simp [Progress.add]
  simp only [Progress.turn] at h
  split at h
  · rename_i hrest
    simp only [Progress.finish] at h
    split at h
    · rename_i hopened
      simp only [Except.ok.injEq, Turn.stop.injEq] at h
      exact ⟨hopened, hrest, h.symm⟩
    · simp at h
  · exact absurd h (hadd _)
  · simp only [Progress.close] at h
    split at h
    · simp at h
    · split at h <;> simp at h
  · simp only [Progress.enter] at h
    split at h
    · simp at h
    · split at h
      · split at h <;> simp at h
      · simp at h
  · exact absurd h (hadd _)
  · exact absurd h (hadd _)

theorem completes_of_stop {p : Progress} {values : List Markup}
    (h : p.turn limit = .ok (.stop values)) :
    Completes limit p.opened p.done p.rest values := by
  rcases turn_eq_stop h with ⟨hopened, hrest, rfl⟩
  rw [hopened, hrest]
  exact ⟨[], .nil, by simp [nestingOf], by simp⟩

/-! ## Whole documents -/

theorem readWithin_of_derives {source : List Char} {values : List Markup}
    (h : Derives source values) (hlimit : nestingOf values ≤ limit) :
    readWithin limit source = .ok values := by
  have hends : EndsText [] := by simp [EndsText]
  have hread := @documentLoop_append limit [] [] source values h [] hends (by simpa using hlimit)
  rw [List.append_nil, List.append_nil] at hread
  rw [readWithin, hread]
  apply Loop.run_of_stop
  simp [documentLoop, Progress.turn, Progress.finish]

theorem derives_of_readWithin {source : List Char} {values : List Markup}
    (h : readWithin limit source = .ok values) :
    Derives source values ∧ nestingOf values ≤ limit := by
  -- The limit bounds the open tags along the whole run, so it goes into the relation.
  have hback : (⟨[], [], source⟩ : Progress).opened.length ≤ limit →
      Completes limit [] [] source values :=
    @Loop.of_run _ _ _ (documentLoop limit)
      (fun p values => p.opened.length ≤ limit → Completes limit p.opened p.done p.rest values)
      (fun _ _ hstop _ => completes_of_stop hstop)
      (fun _ _ _ hturn hnext hopened => completes_of_next hturn hopened hnext) _ _ h
  rcases hback (Nat.zero_le _) with ⟨more, hmore, hfits, hvalues⟩
  rw [List.reverse_nil, List.nil_append] at hvalues
  subst hvalues
  exact ⟨hmore, hfits⟩

/-- A higher limit changes what a document is read as only if too many tags are
    open for the lower one. -/
theorem readWithin_eq_or {limit higher : Nat} (hle : limit ≤ higher) (source : List Char) :
    readWithin limit source = readWithin higher source ∨
      ∃ fault, fault.cause = .nestedTooDeeply ∧ readWithin limit source = .error fault := by
  refine Loop.run_eq_or (fun p => ?_) _
  by_cases hfull : limit ≤ p.opened.length
  · -- Only opening a tag is refused here, and every other turn is the same.
    simp only [documentLoop, Progress.turn]
    split
    · exact Or.inl rfl
    · exact Or.inl rfl
    · exact Or.inl rfl
    · exact Or.inr ⟨⟨.nestedTooDeeply, p.rest⟩, rfl, by rw [Progress.enter, if_pos hfull]⟩
    · exact Or.inl rfl
    · exact Or.inl rfl
  · -- With room for one more tag, both limits let the same turn through.
    have hhigher : ¬ higher ≤ p.opened.length := by omega
    have henter : p.enter limit = p.enter higher := by
      rw [Progress.enter, Progress.enter, if_neg hfull, if_neg hhigher]
    exact Or.inl (by simp only [documentLoop, Progress.turn, henter])

/-- No source derives two different lists of values. -/
theorem derives_unique {source : List Char} {values others : List Markup}
    (h : Derives source values) (hothers : Derives source others) : values = others := by
  -- A limit that is high enough for both lists lets each of them through.
  have hread := readWithin_of_derives h (Nat.le_max_left (nestingOf values) (nestingOf others))
  have hread' := readWithin_of_derives hothers
    (Nat.le_max_right (nestingOf values) (nestingOf others))
  rw [hread, Except.ok.injEq] at hread'
  exact hread'

/-- The reader accepts exactly the grammar, up to the limit on open tags: it
    gives the values that the grammar derives and no others, it refuses every
    source that derives nothing, and a refusal for any reason but the limit
    means that the grammar derives nothing at all. No source derives two lists.
    `read` is the reader with `nestingLimit`. -/
theorem readWithin_iff_derives (limit : Nat) (source : List Char) :
    (∀ values, readWithin limit source = .ok values ↔
      Derives source values ∧ nestingOf values ≤ limit) ∧
    ((∀ values, ¬ Derives source values) → ∃ fault, readWithin limit source = .error fault) ∧
    (∀ fault, readWithin limit source = .error fault → fault.cause ≠ .nestedTooDeeply →
      ∀ values, ¬ Derives source values) ∧
    (∀ values others, Derives source values → Derives source others → values = others) := by
  refine ⟨fun values => ⟨derives_of_readWithin, fun h => readWithin_of_derives h.1 h.2⟩,
    fun hnone => ?_, fun fault hfault hcause values h => ?_, fun _ _ => derives_unique⟩
  · cases hread : readWithin limit source with
    | error fault => exact ⟨fault, rfl⟩
    | ok values => exact absurd (derives_of_readWithin hread).1 (hnone values)
  · -- A limit that is high enough would have let the values through.
    have hread := readWithin_of_derives h (Nat.le_max_right limit (nestingOf values))
    rcases readWithin_eq_or (Nat.le_max_left limit (nestingOf values)) source with
      hsame | ⟨other, hother, herror⟩
    · rw [hfault, hread] at hsame
      exact absurd hsame (by simp)
    · rw [hfault, Except.error.injEq] at herror
      exact hcause (herror ▸ hother)

/-- A tag with blanks around its equals sign, a bare name, and all kinds of content. -/
theorem readWithin_iff_derives_tag :
    Derives "<p a = '\\'' b >x\x7b'\x7d'\x7d<!--->--></p >".toList
      [.element "p" false [.prop "a" (.literal "'"), .prop "b" (.flag true)]
        [.text "x", .expression "'\x7d'", .comment "->"]] :=
  (((readWithin_iff_derives nestingLimit _).1 _).mp rfl).1

end Markup

end Afx
