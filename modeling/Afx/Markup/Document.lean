import Afx.Markup.Tag

/-!
# Documents

A document is read by one loop. Its state holds the tags that are open,
innermost first, the values read since the innermost one was opened, and what
is left of the source. A turn takes one piece off the source: a comment, a
closing tag, an opening tag, an expression, or the text up to the next tag or
brace. A closing tag turns the values read so far into the children of the tag
it closes. The loop stops at the end of the source, where no tag may be open.

Only so many tags may be open at a time: a tag that would be one too many is
refused before anything in it is looked at.

## Main definitions

* `nestingLimit`: How many tags may be open at a time.
* `Opened`: An open tag and the values before it.
* `Progress`: What is open, what is done and what is left.
* `read`: The values of a document.

## Theorems

* `Progress.turn_shortens`: Every turn takes something off the source.
-/

namespace Afx

namespace Markup

/-- How many tags may be open at a time. -/
def nestingLimit : Nat := 494

/-- An open tag: its name and attributes, the values before it, last first, and
    the source from its angle bracket on. -/
structure Opened where
  name : String
  attributes : List Markup
  before : List Markup
  start : List Char

/-- The open tags, innermost first, the values read since the innermost one,
    last first, and what is left of the source. -/
structure Progress where
  opened : List Opened
  done : List Markup
  rest : List Char

namespace Progress

/-- Adds a value that was read to the values done. -/
def add (p : Progress) : Except Fault (Markup × List Char) →
    Except Fault (Turn Progress (List Markup))
  | .ok (value, rest) => .ok (.next { p with done := value :: p.done, rest })
  | .error fault => .error fault

/-- The end of the source ends the document unless a tag is open. -/
def finish (p : Progress) : Except Fault (Turn Progress (List Markup)) :=
  match p.opened with
  | [] => .ok (.stop p.done.reverse)
  | tag :: _ => .error ⟨.unclosedTag tag.name, tag.start⟩

/-- The comment at the front of the source. -/
def commentAt (s : List Char) : Except Fault (Markup × List Char) :=
  match splitAtMark "-->".toList [] (s.drop 4) with
  | some (content, rest) => .ok (.comment (String.ofList content), rest)
  | none => .error ⟨.unterminated .comment, s⟩

/-- The text at the front of the source, up to the next tag or brace. -/
def textAt (s : List Char) : Markup × List Char :=
  let inText (c : Char) : Bool := c != '<' && c != '\x7b'
  (.text (String.ofList (s.takeWhile inText)), s.dropWhile inText)

/-- Closes the innermost tag. -/
def close (p : Progress) : Except Fault (Turn Progress (List Markup)) :=
  match p.opened with
  | [] => .error ⟨.strayClosingTag, p.rest⟩
  | tag :: outer =>
    match closingAt tag.name p.rest with
    | .ok rest =>
      let closed := .element tag.name false tag.attributes p.done.reverse
      .ok (.next ⟨outer, closed :: tag.before, rest⟩)
    | .error fault => .error fault

/-- Opens a tag, or adds a self-closing one, unless too many are open. -/
def enter (limit : Nat) (p : Progress) : Except Fault (Turn Progress (List Markup)) :=
  if limit ≤ p.opened.length then .error ⟨.nestedTooDeeply, p.rest⟩
  else
    match openingAt p.rest with
    | .ok tag =>
      if tag.selfClosing then
        .ok (.next { p with done := .element tag.name true tag.attributes [] :: p.done,
                            rest := tag.rest })
      else .ok (.next ⟨⟨tag.name, tag.attributes, p.done, p.rest⟩ :: p.opened, [], tag.rest⟩)
    | .error fault => .error fault

/-- One piece of the source. -/
def turn (limit : Nat) (p : Progress) : Except Fault (Turn Progress (List Markup)) :=
  match p.rest with
  | [] => p.finish
  -- Comments and closing tags start like opening tags, so they are looked for first.
  | '<' :: '!' :: '-' :: '-' :: _ => p.add (commentAt p.rest)
  | '<' :: '/' :: _ => p.close
  | '<' :: _ => p.enter limit
  | '\x7b' :: _ => p.add (expressionAt p.rest)
  | _ => p.add (.ok (textAt p.rest))

end Progress

namespace Progress

theorem length_commentAt_lt {c : Char} {s : List Char} {found : Markup × List Char}
    (h : commentAt (c :: s) = .ok found) : found.2.length < (c :: s).length := by
  simp only [commentAt] at h
  split at h
  · rename_i hm
    simp only [Except.ok.injEq] at h
    subst h
    have := length_splitAtMark_le hm
    simp only [List.length_drop, List.length_cons] at *
    omega
  · simp at h

theorem length_textAt_lt {c : Char} {s : List Char} (hopen : c ≠ '<') (hbrace : c ≠ '\x7b') :
    (textAt (c :: s)).2.length < (c :: s).length := by
  have := (List.dropWhile_sublist (l := s) fun c => c != '<' && c != '\x7b').length_le
  simp only [textAt, List.dropWhile_cons, bne_iff_ne, ne_eq, hopen, not_false_eq_true, hbrace,
    if_true, List.length_cons, Bool.and_eq_true, and_self]
  omega

theorem shortens_of_add {p next : Progress} {read : Except Fault (Markup × List Char)}
    (h : p.add read = .ok (.next next))
    (hread : ∀ found, read = .ok found → found.2.length < p.rest.length) :
    next.rest.length < p.rest.length := by
  cases read with
  | error fault => simp [add] at h
  | ok found =>
    simp only [add, Except.ok.injEq, Turn.next.injEq] at h
    subst h
    exact hread found rfl

theorem shortens_of_close {p next : Progress} (h : p.close = .ok (.next next)) :
    next.rest.length < p.rest.length := by
  simp only [close] at h
  split at h
  · simp at h
  · split at h
    · rename_i hc
      simp only [Except.ok.injEq, Turn.next.injEq] at h
      subst h
      exact length_closingAt_lt hc
    · simp at h

theorem shortens_of_enter {limit : Nat} {p next : Progress} (h : p.enter limit = .ok (.next next)) :
    next.rest.length < p.rest.length := by
  simp only [enter] at h
  split at h
  · simp at h
  · split at h
    · rename_i ho
      have := length_openingAt_lt ho
      split at h <;>
      · simp only [Except.ok.injEq, Turn.next.injEq] at h
        subst h
        exact this
    · simp at h

/-- Every turn takes something off the source. -/
theorem turn_shortens {limit : Nat} {p next : Progress} (h : p.turn limit = .ok (.next next)) :
    next.rest.length < p.rest.length := by
  simp only [turn] at h
  split at h
  · -- The end of the source is no turn that goes on.
    simp only [finish] at h
    split at h <;> simp at h
  · rename_i hs
    refine shortens_of_add h ?_
    rw [hs]
    exact fun _ => length_commentAt_lt
  · exact shortens_of_close h
  · exact shortens_of_enter h
  · exact shortens_of_add h fun _ => length_expressionAt_lt
  · -- Text has at least its first character, which starts nothing else.
    rename_i hnil _ _ hopen hbrace
    refine shortens_of_add h ?_
    cases hs : p.rest with
    | nil => exact absurd hs hnil
    | cons c s =>
      rintro _ ⟨rfl⟩
      exact length_textAt_lt (fun hc => hopen s (hc ▸ hs)) (fun hc => hbrace s (hc ▸ hs))

end Progress

/-- The loop that reads a document with at most `limit` tags open at a time. -/
def documentLoop (limit : Nat) : Loop Progress Fault (List Markup) where
  turn := Progress.turn limit
  weight p := p.rest.length
  lowers := Progress.turn_shortens

/-- The values of a document with at most `limit` tags open at a time. -/
def readWithin (limit : Nat) (source : List Char) : Except Fault (List Markup) :=
  (documentLoop limit).run ⟨[], [], source⟩

/-- The values of a document. -/
def read (source : List Char) : Except Fault (List Markup) :=
  readWithin nestingLimit source

end Markup

end Afx
