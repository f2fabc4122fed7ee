import Afx.Proofs.Faults
import Afx.Proofs.Scanning
import Mathlib.Logic.Relation

/-!
# Reading Always Advances

A source is read by loops within loops. The loop over a document hands a comment, a
text, an expression or a tag on to a reader of its own, a tag hands its attributes on
to a loop, an attribute its value, and a piece of code its quotations. None of them
may come to rest, also in a source that is no AFX at all: each turn of a loop goes
further, stops or fails, and what is handed on comes back further on in the source.

`Activity` names what reading can be doing, one turn of a loop or the reading of one
part. `GoesOn` leads from a turn to the next turn of the same loop, and `Calls` to
what a part is handed on to. A part that is handed on often starts where the cursor
already is, so not every step advances. But then the part is of a lower rank, and
from rank to rank only so many parts are handed on at one place. What is left of the
source and the rank are the measure that every step lowers, whatever way reading
takes through its loops.

Tags nest, and the loop over a document keeps the open ones on a stack, so the
reading of a tag is not a single step of it. It ends when as few tags are open as
before it, for the first time: `Surfaces`.

## Main definitions

* `Loop.after`: The state of a loop after a number of turns.
* `offset`: How far reading has come in a source.
* `Further`: Reading has come further, within the source.
* `Surfaces`: The first state in which no more than so many tags are open.
* `Activity`: What reading can be doing.
* `GoesOn`, `Calls`: What comes next.
* `ReadTo`, `Returns`: Where a part ends.
* `Active`: What reading a source comes to do.

## Theorems

* `Loop.ends`: A loop ends, after no more turns than it has weight.
* `attribute_cases`, `turn_cases`: A turn goes on behind the part that it handed on, or
  it opens or closes a tag.
* `element_of_surfaces`: A tag is read into an element, and all around it is unchanged.
* `calls_cases`, `takes_of_goesOn`, `takes_of_returns`: What single steps take.
* `wellFounded_next`: No activity goes on or hands on without end.
* `sound_of_active`: Every activity stands in the source, where it belongs.
* `reading_always_advances`: Reading advances in each of its loops and ends.
-/

namespace Afx

namespace Loop

variable {σ ε α : Type}

/-- The state after a number of turns, if the loop goes on for so long. -/
def after (loop : Loop σ ε α) : Nat → σ → Option σ
  | 0, s => some s
  | n + 1, s =>
    match loop.turn s with
    | .ok (.next t) => loop.after n t
    | _ => none

/-- A loop comes to a state in which it fails or stops, and each turn before has cost
    some of its weight. -/
theorem ends (loop : Loop σ ε α) (s : σ) :
    ∃ n t, loop.after n s = some t ∧ n + loop.weight t ≤ loop.weight s ∧
      ((∃ e, loop.turn t = .error e ∧ loop.run s = .error e) ∨
        ∃ a, loop.turn t = .ok (.stop a) ∧ loop.run s = .ok a) := by
  induction hw : loop.weight s using Nat.strongRecOn generalizing s with
  | ind w ih =>
      cases ht : loop.turn s with
      | error e => exact ⟨0, s, rfl, by omega, Or.inl ⟨e, ht, run_of_error ht⟩⟩
      | ok turned =>
          cases turned with
          | stop a => exact ⟨0, s, rfl, by omega, Or.inr ⟨a, ht, run_of_stop ht⟩⟩
          | next t =>
              have hlower := loop.lowers ht
              rcases ih _ (hw ▸ hlower) t rfl with ⟨n, u, hafter, hle, hend⟩
              refine ⟨n + 1, u, by rw [after, ht]; exact hafter, by omega, ?_⟩
              rw [run_of_next ht]
              exact hend

end Loop

namespace Markup

/-! ## Places -/

/-- How far reading has come in a source of which `rest` is left. -/
def offset (source rest : List Char) : Nat :=
  source.length - rest.length

/-- Reading has come further in the source, at most to its end: `s` was left of it, and
    now `t` is. -/
structure Further (source s t : List Char) : Prop where
  left : t <:+ source
  onward : offset source s < offset source t
  inside : offset source t ≤ source.length

theorem further_of_takes {source s t : List Char} (hs : s <:+ source) (h : Takes s t) :
    Further source s t := by
  have hlt := h.length_lt
  have hle := hs.length_le
  refine ⟨h.suffix.trans hs, ?_, Nat.sub_le _ _⟩
  unfold offset
  omega

/-! ## Activities -/

/-- Reading from `p` comes to `q`, which is the first state behind `p` in which no more
    than `depth` tags are open. -/
inductive Surfaces (limit depth : Nat) : Progress → Progress → Prop where
  | now {p q : Progress} (h : p.turn limit = .ok (.next q)) (hdepth : q.opened.length ≤ depth) :
      Surfaces limit depth p q
  | later {p r q : Progress} (h : p.turn limit = .ok (.next r)) (hdepth : depth < r.opened.length)
      (hq : Surfaces limit depth r q) : Surfaces limit depth p q

/-- What reading can be doing: one turn of a loop, or the reading of one part. -/
inductive Activity where
  /-- A turn of the loop over a document. -/
  | content (p : Progress)
  /-- Reading a tag with all that is in it. -/
  | tag (p : Progress)
  | comment (s : List Char)
  | text (s : List Char)
  /-- A turn of the loop over the attributes of the tag called `name`, which starts with `start`. -/
  | opening (name : String) (start : List Char) (a : Attributes)
  | prop (s : List Char)
  | spread (s : List Char)
  | braced (construct : Construct) (s : List Char)
  /-- A turn of the loop over a quoted value. -/
  | quotation (quote : Char) (u : Unquoting)
  /-- A turn of the loop over code, which starts with `start`. -/
  | code (start : List Char) (d : Delimiting)
  /-- A turn of the loop to the end of a quotation in code. -/
  | skip (quote : Char) (s : List Char)

/-- What is left of the source. -/
def Activity.rest : Activity → List Char
  | .content p => p.rest
  | .tag p => p.rest
  | .comment s => s
  | .text s => s
  | .opening _ _ a => a.rest
  | .prop s => s
  | .spread s => s
  | .braced _ s => s
  | .quotation _ u => u.rest
  | .code _ d => d.rest
  | .skip _ s => s

/-- How many more times a part can be handed on at the place of an activity. -/
def Activity.rank : Activity → Nat
  | .content _ => 3
  | .opening _ _ _ => 3
  | .tag _ => 2
  | .prop _ => 2
  | .spread _ => 2
  | .comment _ => 1
  | .text _ => 1
  | .braced _ _ => 1
  | .quotation _ _ => 0
  | .code _ _ => 0
  | .skip _ _ => 0

/-- A turn of a loop goes on with the next turn. -/
inductive GoesOn (limit : Nat) : Activity → Activity → Prop where
  | content {p q : Progress} (h : p.turn limit = .ok (.next q)) :
      GoesOn limit (.content p) (.content q)
  | opening {name : String} {start : List Char} {a b : Attributes}
      (h : a.turn name start = .ok (.next b)) :
      GoesOn limit (.opening name start a) (.opening name start b)
  | quotation {quote : Char} {u v : Unquoting} (h : u.turn quote = .ok (.next v)) :
      GoesOn limit (.quotation quote u) (.quotation quote v)
  | code {start : List Char} {d e : Delimiting} (h : d.turn start = .ok (.next e)) :
      GoesOn limit (.code start d) (.code start e)
  | skip {quote : Char} {s t : List Char} (h : skipTurn quote s = .ok (.next t)) :
      GoesOn limit (.skip quote s) (.skip quote t)

/-- A part of what an activity reads is handed on to another. -/
inductive Calls : Activity → Activity → Prop where
  | comment {p : Progress} {s : List Char} (h : p.rest = '<' :: '!' :: '-' :: '-' :: s) :
      Calls (.content p) (.comment p.rest)
  | tag {p : Progress} {s : List Char} (h : p.rest = '<' :: s) (hcomment : ¬ "!--".toList <+: s)
      (hclosing : ¬ "/".toList <+: s) : Calls (.content p) (.tag p)
  | expression {p : Progress} {s : List Char} (h : p.rest = '\x7b' :: s) :
      Calls (.content p) (.braced .expression p.rest)
  | text {p : Progress} {c : Char} {s : List Char} (h : p.rest = c :: s) (hopen : c ≠ '<')
      (hbrace : c ≠ '\x7b') : Calls (.content p) (.text p.rest)
  | opening {p : Progress} {s : List Char} (h : p.rest = '<' :: s) (hname : name s ≠ []) :
      Calls (.tag p) (.opening (String.ofList (name s)) p.rest ⟨[], afterName s⟩)
  | spread {tag : String} {start : List Char} {a : Attributes} {s : List Char}
      (h : Text.skipBlank a.rest = '\x7b' :: s) :
      Calls (.opening tag start a) (.spread ('\x7b' :: s))
  | prop {tag : String} {start : List Char} {a : Attributes} {c : Char} {s : List Char}
      (h : Text.skipBlank a.rest = c :: s) (hc : isNameChar c = true) :
      Calls (.opening tag start a) (.prop (c :: s))
  | spreadCode {s : List Char} (h : "\x7b...".toList <+: s) :
      Calls (.spread s) (.braced .spread s)
  | valueCode {s r t : List Char} (hequals : Text.skipBlank (afterName s) = '=' :: r)
      (hvalue : Text.skipBlank r = '\x7b' :: t) :
      Calls (.prop s) (.braced .expression ('\x7b' :: t))
  | value {quote : Char} {s r t : List Char} (hequals : Text.skipBlank (afterName s) = '=' :: r)
      (hvalue : Text.skipBlank r = quote :: t) (hquote : quote = '"' ∨ quote = '\'') :
      Calls (.prop s) (.quotation quote ⟨[], t⟩)
  | code {construct : Construct} {s : List Char} :
      Calls (.braced construct ('\x7b' :: s)) (.code s ⟨0, s⟩)
  | quotation {quote : Char} {start s : List Char} {d : Delimiting} (h : d.rest = quote :: s)
      (hquote : isCodeQuote quote = true) : Calls (.code start d) (.skip quote s)

/-- A part other than a tag is read to its end, and `t` is left behind it. -/
inductive ReadTo : Activity → List Char → Prop where
  | comment {s t : List Char} {value : Markup} (h : Progress.commentAt s = .ok (value, t)) :
      ReadTo (.comment s) t
  | text {s t : List Char} {value : Markup} (h : Progress.textAt s = (value, t)) :
      ReadTo (.text s) t
  | prop {s t : List Char} {value : Markup} (h : propAt s = .ok (value, t)) :
      ReadTo (.prop s) t
  | spread {s t : List Char} {value : Markup} (h : spreadAt s = .ok (value, t)) :
      ReadTo (.spread s) t
  | braced {construct : Construct} {s t code : List Char} (h : codeAt construct s = .ok (code, t)) :
      ReadTo (.braced construct s) t

/-- A part is read to its end, and `t` is left behind it. A tag is one more value then,
    with the same tags open around it as before. -/
inductive Returns (limit : Nat) : Activity → List Char → Prop where
  | part {a : Activity} {t : List Char} (h : ReadTo a t) : Returns limit a t
  | tag {p : Progress} {name : String} {selfClosing : Bool} {attributes children : List Markup}
      {t : List Char}
      (h : Surfaces limit p.opened.length p
        ⟨p.opened, .element name selfClosing attributes children :: p.done, t⟩) :
      Returns limit (.tag p) t

/-- An activity goes on, or hands a part on. -/
def Next (limit : Nat) (a b : Activity) : Prop :=
  GoesOn limit a b ∨ Calls a b

/-- What reading a source comes to do. -/
def Active (limit : Nat) (source : List Char) (a : Activity) : Prop :=
  Relation.ReflTransGen (Next limit) (.content ⟨[], [], source⟩) a

/-! ## Parts of a document -/

theorem takes_codeAt {construct : Construct} {s code rest : List Char}
    (h : codeAt construct ('\x7b' :: s) = .ok (code, rest)) : Takes ('\x7b' :: s) rest := by
  rcases codeAt_eq_ok h with ⟨rfl, -⟩
  exact ⟨'\x7b' :: code ++ ['\x7d'], by simp, by simp⟩

theorem takes_spreadAt {s rest : List Char} {value : Markup}
    (h : spreadAt ('\x7b' :: s) = .ok (value, rest)) : Takes ('\x7b' :: s) rest := by
  rcases spreadAt_eq_ok h with ⟨code, -, rfl, -⟩
  exact ⟨'\x7b' :: "...".toList ++ code ++ ['\x7d'], by simp, by simp⟩

theorem takes_propAt {c : Char} {s rest : List Char} {value : Markup} (hc : isNameChar c = true)
    (h : propAt (c :: s) = .ok (value, rest)) : Takes (c :: s) rest := by
  have hne : name (c :: s) ≠ [] := by simp [name, hc]
  rcases propAt_eq_ok hne h with ⟨a, w, -, hs, -⟩
  exact takes_of_suffix ⟨a ++ w, hs.symm⟩ (length_propAt_lt hc h)

theorem takes_commentAt {s rest : List Char} {value : Markup}
    (h : Progress.commentAt ('<' :: '!' :: '-' :: '-' :: s) = .ok (value, rest)) :
    Takes ('<' :: '!' :: '-' :: '-' :: s) rest := by
  rcases commentAt_eq_ok h with ⟨t, -, rfl, -⟩
  exact ⟨"<!--".toList ++ t ++ "-->".toList, by simp, by simp⟩

/-- Text is read from a character on that starts nothing else, so it is not empty. -/
theorem takes_textAt {c : Char} {s : List Char} (hopen : c ≠ '<') (hbrace : c ≠ '\x7b') :
    Takes (c :: s) (Progress.textAt (c :: s)).2 := by
  rcases @textAt_split c s hopen hbrace with ⟨t, hne, -, -, hs, -⟩
  exact ⟨t, hne, hs⟩

theorem takes_openingAt {s : List Char} {found : Opening} (h : openingAt ('<' :: s) = .ok found) :
    Takes ('<' :: s) found.rest :=
  takes_of_suffix (prefix_of_openingAt h).2 (length_openingAt_lt h)

theorem takes_closingAt {tag : String} {s left : List Char}
    (h : closingAt tag ('<' :: '/' :: s) = .ok left) : Takes ('<' :: '/' :: s) left :=
  takes_of_suffix (suffix_of_closingAt h) (length_closingAt_lt h)

/-- The value of a prop stands behind its equals sign. -/
theorem takes_value {s r t : List Char} {c : Char}
    (hequals : Text.skipBlank (afterName s) = '=' :: r) (hvalue : Text.skipBlank r = c :: t) :
    Takes s (c :: t) := by
  have hsign : '=' :: r <:+ s :=
    hequals ▸ (skipBlank_suffix (afterName s)).trans (afterName_suffix s)
  exact .of_suffix hsign ((takes_cons '=' r).suffix_trans (hvalue ▸ skipBlank_suffix r))

/-- A part is handed on from further in the source, or from the same place to an
    activity of lower rank. -/
theorem calls_cases {a b : Activity} (h : Calls a b) :
    Takes a.rest b.rest ∨ b.rest = a.rest ∧ b.rank < a.rank := by
  have hblank : ∀ {s t : List Char}, Text.skipBlank s = t → Takes s t ∨ t = s := by
    rintro s t rfl
    rcases skipBlank_split s with ⟨w, -, hs, -⟩
    by_cases hw : w = []
    · exact Or.inr (by rw [hw, List.nil_append] at hs; exact hs.symm)
    · exact Or.inl ⟨w, hw, hs⟩
  cases h with
  | comment _ => exact Or.inr ⟨rfl, by simp [Activity.rank]⟩
  | tag _ _ _ => exact Or.inr ⟨rfl, by simp [Activity.rank]⟩
  | expression _ => exact Or.inr ⟨rfl, by simp [Activity.rank]⟩
  | text _ _ _ => exact Or.inr ⟨rfl, by simp [Activity.rank]⟩
  | @opening p s h _ =>
      have hs : Takes p.rest s := h ▸ takes_cons '<' s
      exact Or.inl (hs.suffix_trans (afterName_suffix s))
  | spread h => exact (hblank h).imp id fun heq => ⟨heq, by simp [Activity.rank]⟩
  | prop h _ => exact (hblank h).imp id fun heq => ⟨heq, by simp [Activity.rank]⟩
  | spreadCode _ => exact Or.inr ⟨rfl, by simp [Activity.rank]⟩
  | valueCode hequals hvalue => exact Or.inl (takes_value hequals hvalue)
  | value hequals hvalue _ =>
      exact Or.inl ((takes_value hequals hvalue).suffix_trans (List.suffix_cons _ _))
  | @code construct s => exact Or.inl (takes_cons '\x7b' s)
  | @quotation quote start s d h _ =>
      have hs : Takes d.rest s := h ▸ takes_cons quote s
      exact Or.inl hs

theorem suffix_of_calls {a b : Activity} (h : Calls a b) : b.rest <:+ a.rest := by
  rcases calls_cases h with htakes | ⟨hsame, -⟩
  · exact htakes.suffix
  · exact hsame ▸ List.suffix_rfl

/-- How a part starts where it is handed on, and what a loop keeps of where it started. -/
def Activity.Site : Activity → Prop
  | .tag p => ∃ s, p.rest = '<' :: s ∧ ¬ "!--".toList <+: s ∧ ¬ "/".toList <+: s
  | .comment s => ∃ t, s = '<' :: '!' :: '-' :: '-' :: t
  | .text s => ∃ c t, s = c :: t ∧ c ≠ '<' ∧ c ≠ '\x7b'
  | .prop s => ∃ c t, s = c :: t ∧ isNameChar c = true
  | .spread s => ∃ t, s = '\x7b' :: t
  | .braced _ s => ∃ t, s = '\x7b' :: t
  | .quotation quote _ => quote = '"' ∨ quote = '\''
  | .code start d => d.rest <:+ start
  | _ => True

theorem site_of_calls {a b : Activity} (h : Calls a b) : b.Site := by
  cases h with
  | comment h => exact ⟨_, h⟩
  | tag h hcomment hclosing => exact ⟨_, h, hcomment, hclosing⟩
  | expression h => exact ⟨_, h⟩
  | text h hopen hbrace => exact ⟨_, _, h, hopen, hbrace⟩
  | opening _ _ => trivial
  | spread _ => exact ⟨_, rfl⟩
  | prop _ hc => exact ⟨_, _, rfl, hc⟩
  | spreadCode h =>
      rcases h with ⟨t, rfl⟩
      exact ⟨_, rfl⟩
  | valueCode _ _ => exact ⟨_, rfl⟩
  | value _ _ hquote => exact hquote
  | code => exact List.suffix_rfl
  | quotation _ _ => trivial

/-- A part that is read to its end takes at least one character. -/
theorem takes_of_readTo {a : Activity} {t : List Char} (hsite : a.Site) (h : ReadTo a t) :
    Takes a.rest t := by
  cases h with
  | comment h =>
      rcases hsite with ⟨s, rfl⟩
      exact takes_commentAt h
  | text h =>
      rcases hsite with ⟨c, s, rfl, hopen, hbrace⟩
      have htext := takes_textAt (s := s) hopen hbrace
      rw [h] at htext
      exact htext
  | prop h =>
      rcases hsite with ⟨c, s, rfl, hc⟩
      exact takes_propAt hc h
  | spread h =>
      rcases hsite with ⟨s, rfl⟩
      exact takes_spreadAt h
  | braced h =>
      rcases hsite with ⟨s, rfl⟩
      exact takes_codeAt h

/-- So does what hands the part on. -/
theorem takes_of_part {a part : Activity} {t : List Char} (hcalls : Calls a part)
    (h : ReadTo part t) : Takes a.rest t :=
  .of_suffix (suffix_of_calls hcalls) (takes_of_readTo (site_of_calls hcalls) h)

/-! ## Turns -/

variable {limit : Nat}

/-- A turn over attributes goes on behind the attribute that it handed on. -/
theorem attribute_cases {tag : String} {start : List Char} {a b : Attributes}
    (h : a.turn tag start = .ok (.next b)) :
    ∃ part, Calls (.opening tag start a) part ∧ ReadTo part b.rest := by
  have hadd : ∀ {read}, Attributes.add a.done read = .ok (.next b) →
      ∃ value, read = .ok (value, b.rest) := by
    intro read hnext
    cases read with
    | error fault => simp [Attributes.add] at hnext
    | ok found =>
        simp only [Attributes.add, Except.ok.injEq, Turn.next.injEq] at hnext
        exact ⟨found.1, by rw [← hnext]⟩
  simp only [Attributes.turn] at h
  split at h
  -- The end of the source and the two ends of a tag are no turns that go on.
  · simp at h
  · simp at h
  · simp at h
  · rename_i s hs
    rcases hadd h with ⟨value, hread⟩
    exact ⟨_, .spread hs, .spread hread⟩
  · rename_i c s _ _ _ hs
    split at h
    · rename_i hc
      rcases hadd h with ⟨value, hread⟩
      exact ⟨_, .prop hs hc, .prop hread⟩
    · simp at h

theorem codeAt_of_expressionAt {s rest : List Char} {value : Markup}
    (h : expressionAt s = .ok (value, rest)) : ∃ code, codeAt .expression s = .ok (code, rest) := by
  unfold expressionAt at h
  split at h
  · rename_i code left hcode
    simp only [Except.ok.injEq, Prod.mk.injEq] at h
    exact ⟨code, h.2 ▸ hcode⟩
  · simp at h

/-- A tag is added to what is done if it closes itself, and to the stack if not. -/
theorem enter_cases {p q : Progress} (h : p.enter limit = .ok (.next q)) :
    (∃ found, openingAt p.rest = .ok found ∧ q.rest = found.rest) ∧
    ((∃ name attributes, q.opened = p.opened ∧
        q.done = .element name true attributes [] :: p.done) ∨
      ∃ tag, tag.before = p.done ∧ q.opened = tag :: p.opened) := by
  unfold Progress.enter at h
  split at h
  · simp at h
  · split at h
    · rename_i found hfound
      split at h
      · simp only [Except.ok.injEq, Turn.next.injEq] at h
        subst h
        exact ⟨⟨found, hfound, rfl⟩, Or.inl ⟨found.name, found.attributes, rfl, rfl⟩⟩
      · simp only [Except.ok.injEq, Turn.next.injEq] at h
        subst h
        exact ⟨⟨found, hfound, rfl⟩,
          Or.inr ⟨⟨found.name, found.attributes, p.done, p.rest⟩, rfl, rfl⟩⟩
    · simp at h

/-- A closing tag turns the innermost open tag into an element. -/
theorem close_cases {p q : Progress} (h : p.close = .ok (.next q)) :
    ∃ tag, p.opened = tag :: q.opened ∧ closingAt tag.name p.rest = .ok q.rest ∧
      q.done = .element tag.name false tag.attributes p.done.reverse :: tag.before := by
  unfold Progress.close at h
  split at h
  · simp at h
  · rename_i tag outer hopened
    split at h
    · rename_i rest hclosing
      simp only [Except.ok.injEq, Turn.next.injEq] at h
      subst h
      exact ⟨tag, hopened, hclosing, rfl⟩
    · simp at h

/-- A turn over a document goes on behind the part that it handed on, in the tag that it
    opens, or behind the tag that it closes. -/
theorem turn_cases {p q : Progress} (h : p.turn limit = .ok (.next q)) :
    (q.opened = p.opened ∧ ∃ part, Calls (.content p) part ∧ ReadTo part q.rest) ∨
    (Calls (.content p) (.tag p) ∧ p.enter limit = .ok (.next q)) ∨
    ((∃ s, p.rest = '<' :: '/' :: s) ∧ p.close = .ok (.next q)) := by
  rcases p with ⟨opened, done, rest⟩
  have hadd : ∀ {read} {part : Activity}, Progress.add ⟨opened, done, rest⟩ read = .ok (.next q) →
      Calls (.content ⟨opened, done, rest⟩) part →
      (∀ value left, read = .ok (value, left) → ReadTo part left) →
      q.opened = opened ∧ ∃ part, Calls (.content ⟨opened, done, rest⟩) part ∧
        ReadTo part q.rest := by
    intro read part hnext hcalls hpart
    rcases eq_of_add hnext with ⟨value, left, hread, rfl⟩
    exact ⟨rfl, part, hcalls, hpart value left hread⟩
  unfold Progress.turn at h
  dsimp only at h
  split at h
  · -- The end of the source is no turn that goes on.
    unfold Progress.finish at h
    split at h <;> simp at h
  · exact Or.inl (hadd h (.comment rfl) fun _ _ => .comment)
  · exact Or.inr (Or.inr ⟨⟨_, rfl⟩, h⟩)
  · rename_i s hcomment hclosing
    refine Or.inr (Or.inl ⟨.tag rfl ?_ ?_, h⟩)
    · rintro ⟨t, rfl⟩
      exact hcomment t rfl
    · rintro ⟨t, rfl⟩
      exact hclosing t rfl
  · refine Or.inl (hadd h (.expression rfl) fun value left hread => ?_)
    rcases codeAt_of_expressionAt hread with ⟨code, hcode⟩
    exact .braced hcode
  · rename_i hnil _ _ hlt hbrace
    cases rest with
    | nil => exact absurd rfl hnil
    | cons c s =>
        exact Or.inl (hadd h
          (.text rfl (fun hc => hlt s (hc ▸ rfl)) (fun hc => hbrace s (hc ▸ rfl)))
          fun _ _ hread => .text (Except.ok.inj hread))

theorem takes_of_turn {p q : Progress} (h : p.turn limit = .ok (.next q)) :
    Takes p.rest q.rest := by
  rcases turn_cases h with ⟨-, part, hcalls, hread⟩ | ⟨hcalls, henter⟩ | ⟨⟨s, hs⟩, hclose⟩
  · exact takes_of_part hcalls hread
  · rcases site_of_calls hcalls with ⟨s, hs, -, -⟩
    rcases (enter_cases henter).1 with ⟨found, hopening, hrest⟩
    rw [hs] at hopening ⊢
    exact hrest ▸ takes_openingAt hopening
  · rcases close_cases hclose with ⟨tag, -, hclosing, -⟩
    rw [hs] at hclosing ⊢
    exact takes_closingAt hclosing

/-- A turn over a document leaves the tags that are open as they are, opens one more or
    closes the innermost one. -/
theorem opened_of_turn {p q : Progress} (h : p.turn limit = .ok (.next q)) :
    q.opened = p.opened ∨ (∃ tag, q.opened = tag :: p.opened) ∨
      ∃ tag, p.opened = tag :: q.opened ∧
        q.done = .element tag.name false tag.attributes p.done.reverse :: tag.before := by
  rcases turn_cases h with ⟨hsame, -⟩ | ⟨-, henter⟩ | ⟨-, hclose⟩
  · exact Or.inl hsame
  · rcases (enter_cases henter).2 with ⟨-, -, hsame, -⟩ | ⟨tag, -, hopen⟩
    · exact Or.inl hsame
    · exact Or.inr (Or.inl ⟨tag, hopen⟩)
  · rcases close_cases hclose with ⟨tag, hopened, -, hdone⟩
    exact Or.inr (Or.inr ⟨tag, hopened, hdone⟩)

theorem takes_of_goesOn {a b : Activity} (h : GoesOn limit a b) : Takes a.rest b.rest := by
  cases h with
  | content h => exact takes_of_turn h
  | opening h =>
      rcases attribute_cases h with ⟨part, hcalls, hread⟩
      exact takes_of_part hcalls hread
  | quotation h => exact Unquoting.takes_of_next h
  | code h => exact Delimiting.takes_of_next h
  | skip h => exact takes_of_skipTurn h

/-- No chain of turns and of parts that are handed on goes on for ever. -/
theorem wellFounded_next : WellFounded fun b a => Next limit a b := by
  have hrank : ∀ a : Activity, a.rank ≤ 3 := by
    intro a
    cases a <;> simp [Activity.rank]
  -- The rank decides only between activities at the same place.
  have hlower : ∀ {b a}, Next limit a b →
      4 * b.rest.length + b.rank < 4 * a.rest.length + a.rank := by
    intro b a h
    have hb := hrank b
    have htakes : Takes a.rest b.rest →
        4 * b.rest.length + b.rank < 4 * a.rest.length + a.rank := by
      intro htakes
      have hlt := htakes.length_lt
      omega
    rcases h with h | h
    · exact htakes (takes_of_goesOn h)
    · rcases calls_cases h with h | ⟨hsame, hlt⟩
      · exact htakes h
      · rw [hsame]
        omega
  exact Subrelation.wf hlower (measure fun a : Activity => 4 * a.rest.length + a.rank).wf

/-! ## Tags on the stack -/

theorem takes_of_surfaces {depth : Nat} {p q : Progress} (h : Surfaces limit depth p q) :
    Takes p.rest q.rest := by
  induction h with
  | now h _ => exact takes_of_turn h
  | later h _ _ ih => exact (takes_of_turn h).suffix_trans ih.suffix

/-- Inside of a tag, reading surfaces where the tag is closed. What was opened inside of
    it is on top of it until then. -/
theorem closed_of_surfaces {tag : Opened} {outer inner : List Opened} {p q : Progress}
    (h : Surfaces limit outer.length p q) (hopened : p.opened = inner ++ tag :: outer) :
    q.opened = outer ∧
      ∃ children, q.done = .element tag.name false tag.attributes children :: tag.before := by
  induction h generalizing inner with
  | @now p q h hdepth =>
      rcases opened_of_turn h with hsame | ⟨new, hopen⟩ | ⟨last, hclose, hdone⟩
      · rw [hsame, hopened, List.length_append, List.length_cons] at hdepth
        omega
      · rw [hopen, hopened, List.length_cons, List.length_append, List.length_cons] at hdepth
        omega
      · rw [hopened] at hclose
        cases inner with
        | nil =>
            rcases List.cons.inj hclose with ⟨rfl, rfl⟩
            exact ⟨rfl, _, hdone⟩
        | cons first inner =>
            have hinner : inner ++ tag :: outer = q.opened := (List.cons.inj hclose).2
            rw [← hinner, List.length_append, List.length_cons] at hdepth
            omega
  | @later p r q h hdepth _ ih =>
      rcases opened_of_turn h with hsame | ⟨new, hopen⟩ | ⟨last, hclose, -⟩
      · exact ih (hsame.trans hopened)
      · rw [hopened, ← List.cons_append] at hopen
        exact ih hopen
      · rw [hopened] at hclose
        cases inner with
        | nil =>
            rw [← (List.cons.inj hclose).2] at hdepth
            omega
        | cons first inner => exact ih (List.cons.inj hclose).2.symm

/-- A tag that is read to its end is one more value behind those that were done, with
    the same tags open around it. -/
theorem element_of_surfaces {p q : Progress} (henter : p.turn limit = p.enter limit)
    (h : Surfaces limit p.opened.length p q) :
    ∃ name selfClosing attributes children,
      q = ⟨p.opened, .element name selfClosing attributes children :: p.done, q.rest⟩ := by
  rcases q with ⟨opened, done, rest⟩
  cases h with
  | now hturn hdepth =>
      rw [henter] at hturn
      rcases (enter_cases hturn).2 with ⟨name, attributes, rfl, rfl⟩ | ⟨tag, -, hopen⟩
      · exact ⟨name, true, attributes, [], rfl⟩
      · simp only at hopen
        rw [hopen, List.length_cons] at hdepth
        omega
  | @later _ r _ hturn hdepth hq =>
      rw [henter] at hturn
      rcases (enter_cases hturn).2 with ⟨-, -, hsame, -⟩ | ⟨tag, hbefore, hopen⟩
      · rw [hsame] at hdepth
        omega
      · rcases closed_of_surfaces hq (hopen.trans (List.nil_append _).symm) with
          ⟨rfl, children, rfl⟩
        rw [hbefore]
        exact ⟨tag.name, false, tag.attributes, children, rfl⟩

/-- Where reading succeeds, it surfaces from everything. -/
theorem surfaces_of_run (depth : Nat) {p : Progress} {values : List Markup}
    (hrun : (documentLoop limit).run p = .ok values) (hmore : p.opened = [] → p.rest ≠ []) :
    ∃ q, Surfaces limit depth p q := by
  induction hlength : p.rest.length using Nat.strongRecOn generalizing p with
  | ind n ih =>
      cases ht : p.turn limit with
      | error fault =>
          rw [Loop.run_of_error ht] at hrun
          simp at hrun
      | ok turned =>
          cases turned with
          | stop result =>
              rcases turn_eq_stop ht with ⟨hopened, hrest, -⟩
              exact absurd hrest (hmore hopened)
          | next r =>
              by_cases hdepth : r.opened.length ≤ depth
              · exact ⟨r, .now ht hdepth⟩
              · rw [Loop.run_of_next ht] at hrun
                have hopen : r.opened ≠ [] := by
                  intro hnil
                  simp [hnil] at hdepth
                rcases ih _ (hlength ▸ (takes_of_turn ht).length_lt) hrun
                  (fun hnil => absurd hnil hopen) rfl with ⟨q, hq⟩
                exact ⟨q, .later ht (by omega) hq⟩

theorem takes_of_returns {a : Activity} {t : List Char} (hsite : a.Site)
    (h : Returns limit a t) : Takes a.rest t := by
  cases h with
  | part h => exact takes_of_readTo hsite h
  | tag h => exact takes_of_surfaces h

/-- What a turn over a document hands on accounts for where it goes on, unless a tag is
    opened or closed there. -/
theorem content_cases {p q : Progress} (h : GoesOn limit (.content p) (.content q)) :
    (∃ part, Calls (.content p) part ∧ Returns limit part q.rest) ∨
    (Calls (.content p) (.tag p) ∧ ∃ tag, q.opened = tag :: p.opened) ∨
    ∃ tag, p.opened = tag :: q.opened ∧ closingAt tag.name p.rest = .ok q.rest := by
  cases h with
  | content hturn =>
      rcases turn_cases hturn with ⟨-, part, hcalls, hread⟩ | ⟨hcalls, henter⟩ | ⟨-, hclose⟩
      · exact Or.inl ⟨part, hcalls, .part hread⟩
      · rcases (enter_cases henter).2 with ⟨name, attributes, hopened, hdone⟩ | ⟨tag, -, hopen⟩
        · -- A tag that closes itself is read to its end by one turn.
          rcases q with ⟨opened, done, rest⟩
          cases hopened
          cases hdone
          exact Or.inl ⟨_, hcalls, .tag (.now hturn (Nat.le_refl _))⟩
        · exact Or.inr (Or.inl ⟨hcalls, tag, hopen⟩)
      · rcases close_cases hclose with ⟨tag, hopened, hclosing, -⟩
        exact Or.inr (Or.inr ⟨tag, hopened, hclosing⟩)

theorem opening_cases {name : String} {start : List Char} {a b : Attributes}
    (h : GoesOn limit (.opening name start a) (.opening name start b)) :
    ∃ part, Calls (.opening name start a) part ∧ Returns limit part b.rest := by
  cases h with
  | opening hturn =>
      rcases attribute_cases hturn with ⟨part, hcalls, hread⟩
      exact ⟨part, hcalls, .part hread⟩

/-- Neither a comment nor a closing tag stands there, so a tag is opened. -/
theorem turn_eq_enter {p : Progress} (h : (Activity.tag p).Site) :
    p.turn limit = p.enter limit := by
  rcases h with ⟨s, hrest, hcomment, hclosing⟩
  unfold Progress.turn
  rw [hrest]
  split
  · rename_i heq
    simp at heq
  · rename_i heq
    rw [(List.cons.inj heq).2] at hcomment
    simp at hcomment
  · rename_i heq
    rw [(List.cons.inj heq).2] at hclosing
    simp at hclosing
  · rfl
  · rename_i heq
    simp at heq
  · rename_i hopen _
    exact absurd rfl (hopen s)

/-! ## Whole readings -/

/-- An activity in the course of reading a source: it stands in the source, where its
    part can start, and what is still to come decides how reading ends. -/
structure Activity.Sound (limit : Nat) (source : List Char) (a : Activity) : Prop where
  left : a.rest <:+ source
  site : a.Site
  outcome : ∀ p, a = .content p ∨ a = .tag p →
    (documentLoop limit).run p = readWithin limit source

variable {source : List Char}

theorem sound_of_goesOn {a b : Activity} (ha : a.Sound limit source) (h : GoesOn limit a b) :
    b.Sound limit source := by
  refine ⟨(takes_of_goesOn h).suffix.trans ha.left, ?_, ?_⟩
  · cases h with
    | quotation _ => exact ha.site
    | code h => exact (Delimiting.takes_of_next h).suffix.trans ha.site
    | _ => trivial
  · cases h with
    | content hturn =>
        rintro q (hq | hq)
        · rw [← Activity.content.inj hq, ← ha.outcome _ (Or.inl rfl)]
          exact (Loop.run_of_next hturn).symm
        · simp at hq
    | _ => simp

theorem sound_of_calls {a b : Activity} (ha : a.Sound limit source) (h : Calls a b) :
    b.Sound limit source := by
  refine ⟨(suffix_of_calls h).trans ha.left, site_of_calls h, ?_⟩
  cases h with
  | tag _ _ _ =>
      rintro q (hq | hq)
      · simp at hq
      · rw [← Activity.tag.inj hq]
        exact ha.outcome _ (Or.inl rfl)
  | _ => simp

theorem sound_of_active {a : Activity} (h : Active limit source a) : a.Sound limit source := by
  induction h with
  | refl =>
      refine ⟨List.suffix_rfl, trivial, ?_⟩
      rintro p (hp | hp)
      · rw [← Activity.content.inj hp]
        rfl
      · simp at hp
  | tail _ hnext ih =>
      rcases hnext with hnext | hnext
      · exact sound_of_goesOn ih hnext
      · exact sound_of_calls ih hnext

/-- The loop over a quoted value reads what is left of it. -/
theorem quotation_of_active {quote : Char} {u : Unquoting}
    (h : Active limit source (.quotation quote u)) :
    ((quotationLoop quote).run u).toOption = quotation quote u.done u.rest := by
  have hquote : quote = '"' ∨ quote = '\'' := (sound_of_active h).site
  have hslash : quote ≠ '\\' := by rcases hquote with rfl | rfl <;> decide
  exact toOption_run_quotationLoop hslash u.done u.rest

/-- The loop over code delimits what is left of it, behind the code that was passed. -/
theorem braced_of_active {start : List Char} {d : Delimiting}
    (h : Active limit source (.code start d)) :
    ∃ passed, start = passed ++ d.rest ∧
      ((codeLoop start).run d).toOption = bracedFrom (.code d.depth) passed.reverse d.rest := by
  have hsuffix : d.rest <:+ start := (sound_of_active h).site
  rcases hsuffix with ⟨passed, rfl⟩
  exact ⟨passed, rfl, toOption_run_codeLoop d.depth passed d.rest⟩

/-- A tag is read to its end, or the source is refused. -/
theorem returns_or_fails {p : Progress} (h : Active limit source (.tag p)) :
    (∃ t, Returns limit (.tag p) t) ∨ ∃ fault, readWithin limit source = .error fault := by
  have hsound := sound_of_active h
  have hrun := hsound.outcome p (Or.inr rfl)
  cases hread : readWithin limit source with
  | error fault => exact Or.inr ⟨fault, rfl⟩
  | ok values =>
      rcases hsound.site with ⟨s, hrest, -, -⟩
      rcases surfaces_of_run p.opened.length (hrun.trans hread) (by simp [hrest]) with ⟨q, hq⟩
      rcases element_of_surfaces (turn_eq_enter hsound.site) hq with
        ⟨name, selfClosing, attributes, children, heq⟩
      exact Or.inl ⟨q.rest, .tag (heq ▸ hq)⟩

/-- The loop over a document ends, after no more turns than characters were taken, and
    with values only at the end of the source. -/
theorem reading_ends (limit : Nat) (source : List Char) :
    ∃ n p, (documentLoop limit).after n ⟨[], [], source⟩ = some p ∧ n ≤ offset source p.rest ∧
      ((∃ fault, p.turn limit = .error fault ∧ readWithin limit source = .error fault) ∨
        ∃ values, p.turn limit = .ok (.stop values) ∧ readWithin limit source = .ok values ∧
          offset source p.rest = source.length) := by
  rcases (documentLoop limit).ends ⟨[], [], source⟩ with ⟨n, p, hafter, hweight, hend⟩
  have hle : n + p.rest.length ≤ source.length := hweight
  refine ⟨n, p, hafter, by unfold offset; omega, hend.imp id ?_⟩
  rintro ⟨values, hstop, hread⟩
  rcases turn_eq_stop hstop with ⟨-, hrest, -⟩
  exact ⟨values, hstop, hread, by rw [offset, hrest]; rfl⟩

/-- Reading always advances, also in a source that is refused. Whatever it is doing
    stands in the source. A turn of a loop that goes on, and a part that is read to its
    end, have come further; a part that is handed on starts further on, or else it has a
    lower rank. A turn over a document or over attributes goes on where the part ends that
    it handed on, or it opens or closes a tag. So nothing goes on for ever, every tag is
    read to its end unless the source is refused, and the loop over the document ends: with
    values only at the end of the source. The loops over quoted values and code give what
    their readers give. -/
theorem reading_always_advances (limit : Nat) (source : List Char) :
    (∀ a, Active limit source a → a.rest <:+ source ∧
      (∀ b, GoesOn limit a b → Further source a.rest b.rest) ∧
      (∀ t, Returns limit a t → Further source a.rest t) ∧
      (∀ b, Calls a b →
        Further source a.rest b.rest ∨ b.rest = a.rest ∧ b.rank < a.rank)) ∧
    (∀ p q, GoesOn limit (.content p) (.content q) →
      (∃ part, Calls (.content p) part ∧ Returns limit part q.rest) ∨
      (Calls (.content p) (.tag p) ∧ ∃ tag, q.opened = tag :: p.opened) ∨
      ∃ tag, p.opened = tag :: q.opened ∧ closingAt tag.name p.rest = .ok q.rest) ∧
    (∀ name start a b, GoesOn limit (.opening name start a) (.opening name start b) →
      ∃ part, Calls (.opening name start a) part ∧ Returns limit part b.rest) ∧
    (WellFounded fun b a => Next limit a b) ∧
    (∀ p, Active limit source (.tag p) →
      (∃ t, Returns limit (.tag p) t) ∨ ∃ fault, readWithin limit source = .error fault) ∧
    (∀ quote u, Active limit source (.quotation quote u) →
      ((quotationLoop quote).run u).toOption = quotation quote u.done u.rest) ∧
    (∀ start d, Active limit source (.code start d) → ∃ passed, start = passed ++ d.rest ∧
      ((codeLoop start).run d).toOption = bracedFrom (.code d.depth) passed.reverse d.rest) ∧
    ∃ n p, (documentLoop limit).after n ⟨[], [], source⟩ = some p ∧ n ≤ offset source p.rest ∧
      ((∃ fault, p.turn limit = .error fault ∧ readWithin limit source = .error fault) ∨
        ∃ values, p.turn limit = .ok (.stop values) ∧ readWithin limit source = .ok values ∧
          offset source p.rest = source.length) := by
  refine ⟨fun a ha => ?_, fun p q => content_cases, fun name start a b => opening_cases,
    wellFounded_next, fun p hp => returns_or_fails hp, fun quote u hu => quotation_of_active hu,
    fun start d hd => braced_of_active hd, reading_ends limit source⟩
  have hsound := sound_of_active ha
  refine ⟨hsound.left, fun b hb => ?_, fun t ht => ?_, fun b hb => ?_⟩
  · exact further_of_takes hsound.left (takes_of_goesOn hb)
  · exact further_of_takes hsound.left (takes_of_returns hsound.site ht)
  · exact (calls_cases hb).imp (further_of_takes hsound.left) id

/-- A backslash is the last character of the source, in a quotation in the code of a
    spread. The loop that looks for the end of the quotation takes it before it fails. -/
theorem reading_always_advances_escape :
    Active 1 ['<', 'a', ' ', '\x7b', '.', '.', '.', '\'', '\\'] (.skip '\'' ['\\']) ∧
      GoesOn 1 (.skip '\'' ['\\']) (.skip '\'' []) ∧
      Further ['<', 'a', ' ', '\x7b', '.', '.', '.', '\'', '\\'] ['\\'] [] ∧
      readWithin 1 ['<', 'a', ' ', '\x7b', '.', '.', '.', '\'', '\\'] =
        .error ⟨.unterminated .spread, ['\x7b', '.', '.', '.', '\'', '\\']⟩ := by
  have hturn : GoesOn 1 (.skip '\'' ['\\']) (.skip '\'' []) := .skip rfl
  have htag : Active 1 ['<', 'a', ' ', '\x7b', '.', '.', '.', '\'', '\\'] (.tag ⟨[], [], _⟩) :=
    .single (.inr (.tag rfl (by decide) (by decide)))
  have hspread : Active 1 _ (.spread ['\x7b', '.', '.', '.', '\'', '\\']) :=
    (htag.tail (.inr (.opening rfl (by decide)))).tail (.inr (.spread rfl))
  have hcode : Active 1 _ (.code ['.', '.', '.', '\'', '\\'] ⟨0, ['.', '.', '.', '\'', '\\']⟩) :=
    (hspread.tail (.inr (.spreadCode (by decide)))).tail (.inr .code)
  have hdots : Active 1 _ (.code ['.', '.', '.', '\'', '\\'] ⟨0, ['\'', '\\']⟩) :=
    ((hcode.tail (.inl (.code rfl))).tail (.inl (.code rfl))).tail (.inl (.code rfl))
  have hactive := hdots.tail (.inr (.quotation rfl rfl))
  exact ⟨hactive, hturn, ((reading_always_advances 1 _).1 _ hactive).2.1 _ hturn, rfl⟩

end Markup

end Afx
