import Afx.Proofs.Blocks

/-!
# Blocks by a Pattern

Blocks can also be given by a pattern, in the manner of regular expressions: a
run of name characters with no such character before it, a backtick, code, and a
backtick, where code is a repetition of backticks with a backslash and of other
characters. What such a pattern finds depends on the order in which ways to match
are tried. A repetition goes on as long as it can, of two alternatives the first
is tried first, and a way that fails later is given up for the next one. The
search takes the first place where some way succeeds, and goes on behind it.

`Pattern.ends` gives all ways to match from a place, in the order in which they
are tried, so the first of them is the match. Most ways lead nowhere. A run that
is shorter than it could be is followed by a name character, not by a backtick.
Code that goes on past a protected backtick comes to another end if there is
one. Only if there is none does the search come back to that backtick, and then
its backslash is taken for code. `closing` follows these choices along the text,
and its result is where the code of a block closes.

## Main definitions

* `Text.Pattern`, `Text.Place`: Patterns, and places in a text.
* `Text.Pattern.ends`: Where matches from a place end, the preferred one first.
* `Text.Pattern.search`, `Text.Finds`: The first match, and all matches in turn.
* `blockPattern`: The pattern of blocks.
* `closing`: Where the pattern closes a block.

## Theorems

* `Text.flatMap_repeated_one`: A run that must be followed by something else is whole.
* `closes_of_closing`: The pattern closes a block where its form says.
* `finds_of_scanned`: The pattern finds the blocks of a scan.
* `blockPattern_finds_blocks`: The pattern, the scan and the search agree, and only
  blocks are replaced.
-/

namespace Afx

namespace Text

/-! ## Patterns -/

/-- A pattern for a part of a text. -/
inductive Pattern where
  /-- One character of a class. -/
  | one (accepts : Char → Bool)
  /-- Nothing, unless a character of a class stands directly before. -/
  | notBehind (rejects : Char → Bool)
  /-- A part and then another. -/
  | seq (first second : Pattern)
  /-- A part or another, the first one if possible. -/
  | either (first second : Pattern)
  /-- As many parts as possible. -/
  | many (inner : Pattern)
  /-- A part that is kept under a name. -/
  | group (name : String) (inner : Pattern)

/-- A place in a text: what is behind it, last first, what is left, and the parts that
    have been kept, last first. -/
structure Place where
  behind : List Char
  rest : List Char
  groups : List (String × List Char)

/-- The place behind a piece of what is left. -/
def Place.past (s : Place) (w : List Char) : Place :=
  ⟨w.reverse ++ s.behind, s.rest.drop w.length, s.groups⟩

/-- The text from a place up to a later one. -/
def Place.upTo (s t : Place) : List Char :=
  s.rest.take (s.rest.length - t.rest.length)

/-- A later place, where the text up to it is kept under a name. -/
def Place.keep (s : Place) (name : String) (t : Place) : Place :=
  ⟨t.behind, t.rest, (name, s.upTo t) :: t.groups⟩

namespace Pattern

/-- Where so many steps can lead, more of them first; a step has to move on. -/
def repeated (step : Place → List Place) : Nat → Place → List Place
  | 0, s => [s]
  | n + 1, s =>
    ((step s).filter fun t => t.rest.length < s.rest.length).flatMap (repeated step n) ++ [s]

/-- Where matches from a place end, in the order in which they are tried. -/
def ends : Pattern → Place → List Place
  | one accepts, s =>
    match s.rest with
    | [] => []
    | c :: rest => if accepts c then [⟨c :: s.behind, rest, s.groups⟩] else []
  | notBehind rejects, s => if s.behind.head?.any rejects then [] else [s]
  | seq first second, s => (first.ends s).flatMap second.ends
  | either first second, s => first.ends s ++ second.ends s
  | many inner, s => repeated inner.ends s.rest.length s
  | group name inner, s => (inner.ends s).map (s.keep name)

/-- The first match: the text that is skipped, and where the match ends. -/
def search (p : Pattern) (behind : List Char) : List Char → Option (List Char × Place)
  | [] => (p.ends ⟨behind, [], []⟩).head?.map fun t => ([], t)
  | c :: rest =>
    match (p.ends ⟨behind, c :: rest, []⟩).head? with
    | some t => some ([], t)
    | none => (p.search (c :: behind) rest).map fun (skipped, t) => (c :: skipped, t)

end Pattern

/-- A match: the text before it, back to the match before, its text, and its parts. -/
structure Match where
  before : List Char
  matched : List Char
  groups : List (String × List Char)

/-- All matches in turn, and the text behind the last one. -/
inductive Finds (p : Pattern) :
    (behind rest : List Char) → List Match → (tail : List Char) → Prop where
  | none {behind rest : List Char} (h : p.search behind rest = none) : Finds p behind rest [] rest
  | next {behind rest before tail : List Char} {t : Place} {others : List Match}
      (h : p.search behind rest = some (before, t))
      (hothers : Finds p t.behind t.rest others tail) :
      Finds p behind rest
        (⟨before, (Place.past ⟨behind, rest, []⟩ before).upTo t, t.groups⟩ :: others) tail

theorem Finds.unique {p : Pattern} {behind rest tail tail' : List Char} {found found' : List Match}
    (h : Finds p behind rest found tail) (h' : Finds p behind rest found' tail') :
    found = found' ∧ tail = tail' := by
  induction h generalizing found' tail' with
  | none hnone =>
      cases h' with
      | none _ => exact ⟨rfl, rfl⟩
      | next hsome _ =>
          rw [hnone] at hsome
          simp at hsome
  | next hsome _ ih =>
      cases h' with
      | none hnone =>
          rw [hsome] at hnone
          simp at hnone
      | next hsome' hothers =>
          rw [hsome, Option.some.injEq, Prod.mk.injEq] at hsome'
          rcases hsome' with ⟨rfl, rfl⟩
          rcases ih hothers with ⟨rfl, rfl⟩
          exact ⟨rfl, rfl⟩

theorem Pattern.search_of_ends {p : Pattern} {behind rest : List Char} {t : Place}
    (h : (p.ends ⟨behind, rest, []⟩).head? = some t) : p.search behind rest = some ([], t) := by
  cases rest with
  | nil => rw [Pattern.search, h, Option.map_some]
  | cons c rest => rw [Pattern.search, h]

theorem Pattern.search_cons {p : Pattern} {behind rest : List Char} {c : Char}
    (h : (p.ends ⟨behind, c :: rest, []⟩).head? = none) :
    p.search behind (c :: rest) =
      (p.search (c :: behind) rest).map fun (skipped, t) => (c :: skipped, t) := by
  rw [Pattern.search, h]

theorem Place.past_cons (s : Place) {c : Char} {rest : List Char} (h : s.rest = c :: rest)
    (w : List Char) :
    s.past (c :: w) = Place.past ⟨c :: s.behind, rest, s.groups⟩ w := by
  simp [Place.past, h]

theorem Place.upTo_past (s : Place) {w rest : List Char} (h : s.rest = w ++ rest) :
    s.upTo (s.past w) = w := by
  simp [Place.upTo, Place.past, h]

/-- What follows a repetition follows one step and the repetition behind it, or else
    comes directly. -/
theorem flatMap_repeated_succ {α : Type} (step : Place → List Place) (n : Nat) (s : Place)
    (follow : Place → List α) :
    (Pattern.repeated step (n + 1) s).flatMap follow =
      ((step s).filter fun t => t.rest.length < s.rest.length).flatMap
        (fun t => (Pattern.repeated step n t).flatMap follow) ++ follow s := by
  rw [Pattern.repeated, List.flatMap_append, List.flatMap_assoc, List.flatMap_singleton]

/-- A run that has to be followed by something else is taken as a whole. -/
theorem flatMap_repeated_one {α : Type} {accepts : Char → Bool} {follow : Place → List α}
    (hfollow : ∀ t c rest, t.rest = c :: rest → accepts c = true → follow t = []) (n : Nat)
    (s : Place) (hn : s.rest.length ≤ n) :
    (Pattern.repeated (Pattern.one accepts).ends n s).flatMap follow =
      follow (s.past (s.rest.takeWhile accepts)) := by
  induction n generalizing s with
  | zero =>
      rcases s with ⟨behind, rest, groups⟩
      have hrest : rest = [] := List.length_eq_zero_iff.mp (Nat.le_zero.mp hn)
      simp [Pattern.repeated, Place.past, hrest]
  | succ n ih =>
      rcases s with ⟨behind, rest, groups⟩
      cases rest with
      | nil => simp [Pattern.repeated, Pattern.ends, Place.past]
      | cons c rest =>
          by_cases hc : accepts c = true
          · -- Stopping here leaves a character of the run in front.
            have hstop := hfollow ⟨behind, c :: rest, groups⟩ c rest rfl hc
            have hnext := ih ⟨c :: behind, rest, groups⟩ (by simpa using hn)
            rw [List.takeWhile_cons, if_pos hc, Place.past_cons _ rfl]
            simpa [Pattern.repeated, Pattern.ends, hc, hstop] using hnext
          · simp [Pattern.repeated, Pattern.ends, Place.past, hc]

end Text

namespace Fusion

open Text

/-! ## The pattern of blocks -/

/-- The backtick. -/
def tickPattern : Pattern :=
  .one (· == '\x60')

/-- A protected backtick, or else any other character. -/
def codePattern : Pattern :=
  .either (.seq (.one (· == '\\')) tickPattern) (.one (· != '\x60'))

/-- One name character or more. -/
def namePattern : Pattern :=
  .group "identifier" (.seq (.one isBlockNameChar) (.many (.one isBlockNameChar)))

/-- Code between backticks. -/
def bodyPattern : Pattern :=
  .seq tickPattern (.seq (.group "code" (.many codePattern)) tickPattern)

/-- A name that is not part of a longer one, and code between backticks. -/
def blockPattern : Pattern :=
  .seq (.notBehind isBlockNameChar) (.seq namePattern bodyPattern)

/-- The match of a block. -/
def Block.asMatch (b : Block) : Match :=
  ⟨b.before, b.written, [("code", b.code), ("identifier", b.name)]⟩

/-- Where the pattern closes a block: at a backtick, and at a protected one only if it
    does not close it later. -/
def closing : List Char → Option (List Char × List Char)
  | [] => none
  | '\x60' :: rest => some ([], rest)
  | '\\' :: '\x60' :: rest =>
    ((closing rest).map fun (code, after) => ('\\' :: '\x60' :: code, after)).or
      (some (['\\'], rest))
  | c :: rest => (closing rest).map fun (code, after) => (c :: code, after)

theorem closing_eq_none {s : List Char} (h : closing s = none) : '\x60' ∉ s := by
  fun_induction closing s with
  | case1 => simp
  | case2 rest => simp at h
  | case3 rest ih => simp at h
  | case4 c rest htick hslash ih =>
      rw [Option.map_eq_none_iff] at h
      rw [List.mem_cons, not_or]
      exact ⟨fun hc => htick hc.symm, ih h⟩

/-- The pattern closes a block where its form says. -/
theorem closes_of_closing {s code after : List Char} (h : closing s = some (code, after)) :
    s = code ++ '\x60' :: after ∧ Closes code after := by
  -- Code never starts with a backtick, so it does not matter what stands before it.
  have hall : s = code ++ '\x60' :: after ∧
      (∀ p : Char, (p :: code).IsChain fun c d => d = '\x60' → c = '\\') ∧
      (code.getLast? ≠ some '\\' ∨ '\x60' ∉ after) := by
    fun_induction closing s generalizing code after with
    | case1 => simp at h
    | case2 rest =>
        rw [Option.some.injEq, Prod.mk.injEq] at h
        rcases h with ⟨rfl, rfl⟩
        exact ⟨rfl, fun p => .singleton p, Or.inl (by simp)⟩
    | case3 rest ih =>
        cases hinner : closing rest with
        | none =>
            rw [hinner, Option.map_none, Option.none_or, Option.some.injEq, Prod.mk.injEq] at h
            rcases h with ⟨rfl, rfl⟩
            refine ⟨rfl, fun p => ?_, Or.inr (closing_eq_none hinner)⟩
            exact List.isChain_cons_cons.mpr ⟨fun hslash => absurd hslash (by decide), .singleton _⟩
        | some found =>
            rcases found with ⟨inner, behind⟩
            rw [hinner, Option.map_some, Option.some_or, Option.some.injEq, Prod.mk.injEq] at h
            rcases h with ⟨rfl, rfl⟩
            rcases ih hinner with ⟨hrest, hchain, hends⟩
            refine ⟨by rw [hrest]; rfl, fun p => ?_, ?_⟩
            · rw [List.isChain_cons_cons, List.isChain_cons_cons]
              exact ⟨fun hslash => absurd hslash (by decide), fun _ => rfl, hchain _⟩
            · refine hends.imp_left fun hlast => ?_
              rw [List.getLast?_cons, List.getLast?_cons, Option.getD_some]
              cases hinnerLast : inner.getLast? with
              | none => simp
              | some d => simpa [hinnerLast] using hlast
    | case4 c rest htick hslash ih =>
        rcases Option.map_eq_some_iff.mp h with ⟨⟨inner, behind⟩, hinner, hpair⟩
        rw [Prod.mk.injEq] at hpair
        rcases hpair with ⟨rfl, rfl⟩
        rcases ih hinner with ⟨hrest, hchain, hends⟩
        refine ⟨by rw [hrest]; rfl, fun p => ?_, hends.imp_left fun hlast => ?_⟩
        · exact List.isChain_cons_cons.mpr ⟨fun hc => absurd hc htick, hchain c⟩
        · rw [List.getLast?_cons]
          cases hinnerLast : inner.getLast? with
          | none =>
              -- The code ends here, so this is no backslash, or else it would protect.
              have hnil : inner = [] := by simpa using hinnerLast
              intro hc
              rw [Option.getD_none, Option.some.injEq] at hc
              exact hslash behind hc (by rw [hrest, hnil, List.nil_append])
          | some d => simpa [hinnerLast] using hlast
  exact ⟨hall.1, hall.2.1 '\x60', hall.2.2⟩

/-- The only other backtick is protected, so the code takes its backslash. -/
example : closing "x\\\x60y".toList = some ("x\\".toList, "y".toList) := by decide

theorem closing_of_closes {code after : List Char} (h : Closes code after) :
    closing (code ++ '\x60' :: after) = some (code, after) := by
  cases hclosing : closing (code ++ '\x60' :: after) with
  | none => exact absurd (by simp) (closing_eq_none hclosing)
  | some found =>
      rcases found with ⟨code', after'⟩
      rcases closes_of_closing hclosing with ⟨hsame, hcloses⟩
      -- The walk along the text comes to one end only.
      have hcode := codeAt?_of_closes hcloses
      rw [← hsame, codeAt?_of_closes h] at hcode
      rw [hcode]

/-! ## Matches from a place -/

theorem ends_tick (t : Place) {rest : List Char} (h : t.rest = '\x60' :: rest) :
    tickPattern.ends t = [⟨'\x60' :: t.behind, rest, t.groups⟩] := by
  rw [tickPattern, Pattern.ends, h]
  rfl

theorem ends_tick_of_ne {t : Place} (h : t.rest.head? ≠ some '\x60') : tickPattern.ends t = [] := by
  rw [tickPattern, Pattern.ends]
  cases hrest : t.rest with
  | nil => rfl
  | cons c rest =>
      rw [hrest] at h
      simpa using h

/-- A protected backtick is taken as a whole first, and then its backslash alone. -/
theorem ends_code_protected (behind rest : List Char) (groups : List (String × List Char)) :
    codePattern.ends ⟨behind, '\\' :: '\x60' :: rest, groups⟩ =
      [⟨'\x60' :: '\\' :: behind, rest, groups⟩, ⟨'\\' :: behind, '\x60' :: rest, groups⟩] :=
  rfl

theorem ends_code_tick (behind rest : List Char) (groups : List (String × List Char)) :
    codePattern.ends ⟨behind, '\x60' :: rest, groups⟩ = [] :=
  rfl

theorem ends_code_plain (behind : List Char) {c : Char} {rest : List Char} (htick : c ≠ '\x60')
    (hslash : ∀ others, c = '\\' → rest ≠ '\x60' :: others) (groups : List (String × List Char)) :
    codePattern.ends ⟨behind, c :: rest, groups⟩ = [⟨c :: behind, rest, groups⟩] := by
  have hpair : (Pattern.seq (.one (· == '\\')) tickPattern).ends ⟨behind, c :: rest, groups⟩ =
      [] := by
    by_cases hc : c = '\\'
    · have hhead : rest.head? ≠ some '\x60' := by
        intro hhead
        rcases List.head?_eq_some_iff.mp hhead with ⟨others, hrest⟩
        exact hslash others hc hrest
      simp [Pattern.ends, hc, ends_tick_of_ne, hhead]
    · simp [Pattern.ends, hc]
  rw [codePattern, Pattern.ends, hpair]
  simp [Pattern.ends, htick]

/-- Of the ways to read code, the first that is followed by a backtick ends where the
    pattern closes the block. -/
theorem head?_repeated_code {α : Type} (follow : Place → List α)
    (result : Place → List Char → α)
    (htick : ∀ t rest, t.rest = '\x60' :: rest → follow t = [result t rest])
    (hother : ∀ t, t.rest.head? ≠ some '\x60' → follow t = []) (n : Nat) (s : Place)
    (hn : s.rest.length ≤ n) :
    ((Pattern.repeated codePattern.ends n s).flatMap follow).head? =
      (closing s.rest).map fun (code, after) => result (s.past code) after := by
  induction n generalizing s with
  | zero =>
      rcases s with ⟨behind, rest, groups⟩
      have hrest : rest = [] := List.length_eq_zero_iff.mp (Nat.le_zero.mp hn)
      subst hrest
      have hhere := hother ⟨behind, [], groups⟩ (by simp)
      simp [Pattern.repeated, closing, hhere]
  | succ n ih =>
      rcases s with ⟨behind, rest, groups⟩
      rw [flatMap_repeated_succ]
      fun_cases closing rest with
      | case1 =>
          have hhere := hother ⟨behind, [], groups⟩ (by simp)
          simp [codePattern, Pattern.ends, hhere]
      | case2 rest =>
          have hhere := htick ⟨behind, '\x60' :: rest, groups⟩ rest rfl
          simp [ends_code_tick, hhere, Place.past]
      | case3 rest =>
          -- Going on behind the backtick comes first, and closing at it second.
          have hboth := ih ⟨'\x60' :: '\\' :: behind, rest, groups⟩
            (by simp only [List.length_cons] at hn ⊢; omega)
          have halone := ih ⟨'\\' :: behind, '\x60' :: rest, groups⟩ (by simpa using hn)
          have hhere := hother ⟨behind, '\\' :: '\x60' :: rest, groups⟩ (by simp)
          have hmoves : ∀ t ∈ codePattern.ends ⟨behind, '\\' :: '\x60' :: rest, groups⟩,
              decide (t.rest.length < ('\\' :: '\x60' :: rest).length) = true := by
            intro t ht
            rw [ends_code_protected] at ht
            rcases List.mem_pair.mp ht with rfl | rfl
            · simp only [List.length_cons, decide_eq_true_eq]
              omega
            · simp only [List.length_cons, decide_eq_true_eq]
              omega
          rw [closing, Option.map_some] at halone
          rw [List.filter_eq_self.mpr hmoves, ends_code_protected, hhere, List.append_nil,
            List.flatMap_cons, List.flatMap_singleton, List.head?_append, hboth, halone]
          cases closing rest with
          | none => simp [Place.past]
          | some found => simp [Place.past]
      | case4 c rest htick' hslash =>
          have hnext := ih ⟨c :: behind, rest, groups⟩ (by simpa using hn)
          have hhere := hother ⟨behind, c :: rest, groups⟩ (by simpa using htick')
          rw [ends_code_plain behind htick' hslash, hhere, List.append_nil, Option.map_map]
          simpa [Function.comp_def, Place.past] using hnext

/-- Behind its opening backtick, the body of a block ends where the pattern closes it. -/
theorem head?_ends_body (behind inner : List Char) (groups : List (String × List Char)) :
    (bodyPattern.ends ⟨behind, '\x60' :: inner, groups⟩).head? =
      (closing inner).map fun (code, after) =>
        ⟨'\x60' :: (code.reverse ++ '\x60' :: behind), after, ("code", code) :: groups⟩ := by
  -- Code is read from behind the opening backtick, and kept when it has been read.
  generalize hstart : (⟨'\x60' :: behind, inner, groups⟩ : Place) = start
  have hends : bodyPattern.ends ⟨behind, '\x60' :: inner, groups⟩ =
      (Pattern.repeated codePattern.ends start.rest.length start).flatMap fun t =>
        tickPattern.ends (start.keep "code" t) := by
    rw [bodyPattern, Pattern.ends, ends_tick _ rfl, List.flatMap_singleton, Pattern.ends,
      Pattern.ends, List.flatMap_map, Pattern.ends, ← hstart]
  have hfirst := head?_repeated_code (fun t => tickPattern.ends (start.keep "code" t))
    (fun t after => ⟨'\x60' :: t.behind, after, ("code", start.upTo t) :: t.groups⟩)
    (fun t rest ht => ends_tick (start.keep "code" t) ht)
    (fun t ht => @ends_tick_of_ne (start.keep "code" t) ht) start.rest.length start (Nat.le_refl _)
  have hrest : start.rest = inner := by rw [← hstart]
  rw [hends, hfirst, hrest]
  cases hclosing : closing inner with
  | none => rfl
  | some found =>
      rcases found with ⟨code, after⟩
      have hcode := start.upTo_past (hrest.trans (closes_of_closing hclosing).1)
      simp only [Option.map_some, hcode]
      rw [← hstart]
      rfl

theorem ends_body_of_ne {t : Place} (h : t.rest.head? ≠ some '\x60') : bodyPattern.ends t = [] := by
  rw [bodyPattern, Pattern.ends, ends_tick_of_ne h, List.flatMap_nil]

/-- A name is the whole run of name characters. -/
theorem ends_name (behind : List Char) {name rest : List Char}
    (hname : ∀ c ∈ name, isBlockNameChar c = true) (hne : name ≠ [])
    (hrest : ∀ c ∈ rest.head?, isBlockNameChar c = false) :
    (Pattern.seq namePattern bodyPattern).ends ⟨behind, name ++ rest, []⟩ =
      bodyPattern.ends ⟨name.reverse ++ behind, rest, [("identifier", name)]⟩ := by
  rcases List.exists_cons_of_ne_nil hne with ⟨c, run, rfl⟩
  have hc := hname c (by simp)
  have hrun : (run ++ rest).takeWhile isBlockNameChar = run :=
    Markup.takeWhile_run (fun d hd => hname d (List.mem_cons_of_mem _ hd)) hrest
  generalize hstart : (⟨behind, c :: run ++ rest, []⟩ : Place) = start
  -- A name that stops too early is followed by another name character.
  have hfollow : ∀ (t : Place) (d : Char) (others : List Char), t.rest = d :: others →
      isBlockNameChar d = true → bodyPattern.ends (start.keep "identifier" t) = [] := by
    intro t d others ht hd
    refine ends_body_of_ne ?_
    simpa [Place.keep, ht] using ne_tick_of_isBlockNameChar hd
  have hwhole := flatMap_repeated_one hfollow (run ++ rest).length ⟨c :: behind, run ++ rest, []⟩
    (Nat.le_refl _)
  have hends : (Pattern.seq namePattern bodyPattern).ends start =
      (Pattern.repeated (Pattern.one isBlockNameChar).ends (run ++ rest).length
        ⟨c :: behind, run ++ rest, []⟩).flatMap fun t =>
          bodyPattern.ends (start.keep "identifier" t) := by
    rw [← hstart]
    simp [Pattern.ends, namePattern, hc, List.flatMap_map]
  have hpast : Place.past ⟨c :: behind, run ++ rest, []⟩ run = start.past (c :: run) := by
    rw [← hstart, Place.past_cons _ rfl]
    rfl
  have hname' : start.upTo (start.past (c :: run)) = c :: run :=
    start.upTo_past (by rw [← hstart])
  rw [hends, hwhole, hrun, hpast, Place.keep, hname', ← hstart]
  simp [Place.past]

theorem ends_unnamed (behind : List Char) {rest : List Char}
    (h : ∀ c ∈ rest.head?, isBlockNameChar c = false) :
    blockPattern.ends ⟨behind, rest, []⟩ = [] := by
  cases rest with
  | nil => simp [blockPattern, namePattern, Pattern.ends]
  | cons c rest =>
      have hc := h c rfl
      simp [blockPattern, namePattern, Pattern.ends, hc]

/-- The pattern matches where a block starts. -/
theorem head?_ends_block {behind name code after : List Char}
    (hbehind : ∀ c ∈ behind.head?, isBlockNameChar c = false)
    (hname : ∀ c ∈ name, isBlockNameChar c = true) (hne : name ≠ []) (hcloses : Closes code after) :
    (blockPattern.ends ⟨behind, name ++ '\x60' :: (code ++ '\x60' :: after), []⟩).head? =
      some ⟨'\x60' :: (code.reverse ++ '\x60' :: (name.reverse ++ behind)), after,
        [("code", code), ("identifier", name)]⟩ := by
  have htick : ∀ c ∈ ('\x60' :: (code ++ '\x60' :: after)).head?, isBlockNameChar c = false := by
    intro c hc
    rw [← Option.some.inj hc]
    decide
  have hahead : (Pattern.notBehind isBlockNameChar).ends
      ⟨behind, name ++ '\x60' :: (code ++ '\x60' :: after), []⟩ =
        [⟨behind, name ++ '\x60' :: (code ++ '\x60' :: after), []⟩] := by
    cases behind with
    | nil => rfl
    | cons c behind => simp [Pattern.ends, hbehind c rfl]
  rw [blockPattern, Pattern.ends, hahead, List.flatMap_singleton,
    ends_name behind hname hne htick, head?_ends_body, closing_of_closes hcloses]
  rfl

/-- Where the pattern matches, a name is followed by a backtick with another behind it. -/
theorem opening_of_ends {behind rest : List Char} {t : Place}
    (h : (blockPattern.ends ⟨behind, rest, []⟩).head? = some t) :
    ∃ name inner, rest = name ++ '\x60' :: inner ∧ name ≠ [] ∧
      (∀ c ∈ name, isBlockNameChar c = true) ∧ '\x60' ∈ inner := by
  have hsplit : rest = rest.takeWhile isBlockNameChar ++ rest.dropWhile isBlockNameChar :=
    List.takeWhile_append_dropWhile.symm
  have hname : ∀ c ∈ rest.takeWhile isBlockNameChar, isBlockNameChar c = true := fun c hc =>
    List.mem_takeWhile_imp hc
  have hbehind : ∀ c ∈ (rest.dropWhile isBlockNameChar).head?, isBlockNameChar c = false := by
    intro c hc
    have hnot := List.head?_dropWhile_not isBlockNameChar rest
    rw [Option.mem_def.mp hc] at hnot
    simpa using hnot
  generalize rest.takeWhile isBlockNameChar = name at hsplit hname
  generalize rest.dropWhile isBlockNameChar = others at hsplit hbehind
  subst hsplit
  by_cases hne : name = []
  · rw [hne, List.nil_append, ends_unnamed behind hbehind] at h
    simp at h
  · -- What comes before the name does not matter, only that the body matches behind it.
    have hbody : (bodyPattern.ends ⟨name.reverse ++ behind, others, [("identifier", name)]⟩).head? =
        some t := by
      rw [← ends_name behind hname hne hbehind]
      rw [blockPattern, Pattern.ends, Pattern.ends] at h
      by_cases hany : (Option.any isBlockNameChar behind.head?) = true
      · simp [hany] at h
      · rwa [if_neg hany, List.flatMap_singleton] at h
    by_cases htick : others.head? = some '\x60'
    · rcases List.head?_eq_some_iff.mp htick with ⟨inner, rfl⟩
      refine ⟨name, inner, rfl, hne, hname, ?_⟩
      rw [head?_ends_body] at hbody
      rcases Option.map_eq_some_iff.mp hbody with ⟨⟨code, after⟩, hclosing, -⟩
      rw [(closes_of_closing hclosing).1]
      simp
    · rw [ends_body_of_ne htick] at hbody
      simp at hbody

/-! ## The search -/

/-- A match would be a backtick behind a name character, with another behind it. -/
theorem head?_ends_eq_none (behind : List Char) {rest : List Char} (h : NoBlock rest) :
    (blockPattern.ends ⟨behind, rest, []⟩).head? = none := by
  by_contra hsome
  rcases Option.ne_none_iff_exists.mp hsome with ⟨t, ht⟩
  rcases opening_of_ends ht.symm with ⟨name, inner, rfl, hne, hname, hinner⟩
  refine h name.dropLast (name.getLast hne) inner ?_ (hname _ (List.getLast_mem hne)) hinner
  rw [← List.singleton_append (x := name.getLast hne), ← List.append_assoc,
    List.dropLast_append_getLast hne]

theorem search_eq_none (behind : List Char) {rest : List Char} (h : NoBlock rest) :
    blockPattern.search behind rest = none := by
  induction rest generalizing behind with
  | nil => rw [Pattern.search, head?_ends_eq_none behind h, Option.map_none]
  | cons c rest ih =>
      have hrest : NoBlock rest := fun u d v hs hd => h (c :: u) d v (by rw [hs]; rfl) hd
      rw [Pattern.search_cons (head?_ends_eq_none behind h), ih _ hrest, Option.map_none]

/-- Before the first block there is no match: a match would be within the text, where no
    backtick opens a block, or run into the name, which is a whole run. -/
theorem head?_ends_before (behind rest : List Char) {before : List Char} (hne : before ≠ [])
    (hplain : before.IsChain fun c d => d = '\x60' → isBlockNameChar c = false)
    (hwhole : ∀ c ∈ before.getLast?, isBlockNameChar c = false) :
    (blockPattern.ends ⟨behind, before ++ rest, []⟩).head? = none := by
  by_contra hsome
  rcases Option.ne_none_iff_exists.mp hsome with ⟨t, ht⟩
  rcases opening_of_ends ht.symm with ⟨name, inner, hsplit, hname, hchars, -⟩
  have hlast : ∀ run : List Char, before ++ run ≠ name := by
    rintro run rfl
    have hmem := List.getLast_mem hne
    have hnot := hwhole _ (List.getLast?_eq_some_getLast hne)
    rw [hchars _ (List.mem_append_left _ hmem)] at hnot
    exact absurd hnot (by simp)
  rcases List.append_eq_append_iff.mp hsplit with ⟨run, hrun, -⟩ | ⟨within, rfl, hwithin⟩
  · exact hlast run hrun.symm
  · cases within with
    | nil => exact hlast [] (by rw [List.append_nil, List.append_nil])
    | cons c within =>
        rw [List.cons_append, List.cons.injEq] at hwithin
        have hnot := (List.isChain_append.mp hplain).2.2 _ (List.getLast?_eq_some_getLast hname) c
          rfl hwithin.1.symm
        rw [hchars _ (List.getLast_mem hname)] at hnot
        exact absurd hnot (by simp)

/-- The first match is the first block. -/
theorem search_block (behind : List Char) {before name code after : List Char}
    (hopens : Opens before name) (hcloses : Closes code after)
    (hbehind : before = [] → ∀ c ∈ behind.head?, isBlockNameChar c = false) :
    blockPattern.search behind (before ++ (name ++ '\x60' :: (code ++ '\x60' :: after))) =
      some (before,
        ⟨'\x60' :: (code.reverse ++ '\x60' :: (name.reverse ++ (before.reverse ++ behind))), after,
          [("code", code), ("identifier", name)]⟩) := by
  induction before generalizing behind with
  | nil =>
      exact Pattern.search_of_ends
        (head?_ends_block (hbehind rfl) hopens.named hopens.nonempty hcloses)
  | cons c before ih =>
      have hnone := head?_ends_before behind (name ++ '\x60' :: (code ++ '\x60' :: after))
        (List.cons_ne_nil c before) hopens.plain hopens.whole
      rw [List.cons_append] at hnone
      have hwhole : ∀ d ∈ before.getLast?, isBlockNameChar d = false := fun d hd =>
        hopens.whole d (List.mem_getLast?_cons hd)
      have hnext := ih (c :: behind) ⟨hopens.plain.tail, hwhole, hopens.named, hopens.nonempty⟩ (by
        rintro rfl d hd
        rw [← Option.some.inj hd]
        exact hopens.whole c rfl)
      rw [List.cons_append, Pattern.search_cons hnone, hnext]
      simp

/-! ## All matches -/

/-- The pattern finds the blocks of a scan. -/
theorem finds_of_scanned {front rest tail : List Char} {bs : List Block}
    (h : Scanned front rest bs tail) (hfront : ∀ c ∈ front.getLast?, isBlockNameChar c = false) :
    Finds blockPattern front.reverse rest (bs.map Block.asMatch) tail := by
  induction h with
  | @done front rest h => exact .none (search_eq_none _ h)
  | @block front after tail b others hopens hcloses hmargin _ ih =>
      have hrest : b.before ++ b.written ++ after =
          b.before ++ (b.name ++ '\x60' :: (b.code ++ '\x60' :: after)) := by
        simp [Block.written]
      have hsearch := search_block front.reverse hopens hcloses (by
        intro _ c hc
        rw [List.head?_reverse] at hc
        exact hfront c hc)
      -- Behind a block comes its closing backtick, which is no name character.
      have hlast : (front ++ b.before ++ b.written).getLast? = some '\x60' := by
        rw [Block.written, ← List.append_assoc, List.getLast?_concat]
      have hothers := ih (by
        intro c hc
        rw [hlast] at hc
        rw [← Option.some.inj hc]
        decide)
      have hbehind : (front ++ b.before ++ b.written).reverse = '\x60' :: (b.code.reverse ++
          '\x60' :: (b.name.reverse ++ (b.before.reverse ++ front.reverse))) := by
        simp [Block.written]
      rw [hbehind] at hothers
      rw [← hrest] at hsearch
      have hfinds := Finds.next hsearch hothers
      have hmatched : Place.upTo (Place.past ⟨front.reverse, b.before ++ b.written ++ after, []⟩
          b.before) ⟨'\x60' :: (b.code.reverse ++ '\x60' :: (b.name.reverse ++
            (b.before.reverse ++ front.reverse))), after,
            [("code", b.code), ("identifier", b.name)]⟩ = b.written := by
        simp [Place.upTo, Place.past]
      rw [hmatched] at hfinds
      exact hfinds

/-- What the pattern finds in a document are the blocks that are found by the search, and
    those of its scan. A document is its blocks with the texts around them. Converting it
    puts the Fusion of its code in place of every block of the name in the settings and
    leaves all else as it is; if some code has no Fusion, the first such code decides. -/
theorem blockPattern_finds_blocks (source : List Char) :
    ∃ bs tail, blocks source = (bs, tail) ∧
      (∀ found rest, Finds blockPattern [] source found rest ↔
        found = bs.map Block.asMatch ∧ rest = tail) ∧
      (∀ found rest, Scanned [] source found rest ↔ found = bs ∧ rest = tail) ∧
      source = bs.flatMap (fun b => b.before ++ b.written) ++ tail ∧
      ∀ s : Settings, ∃ results, List.Forall₂ s.Stands bs results ∧
        (∀ texts : List String, results = texts.map .ok →
          s.convertBlocks (String.ofList source) =
            .ok (interleaved (bs.map Block.before) texts ++ String.ofList tail)) ∧
        (∀ (texts : List String) fault others, results = texts.map .ok ++ .error fault :: others →
          s.convertBlocks (String.ofList source) = .error fault) := by
  rcases exists_scanned [] source with ⟨bs, tail, hscan⟩
  have hblocks := blocks_of_scanned hscan
  have hfinds := finds_of_scanned hscan (by simp)
  refine ⟨bs, tail, hblocks, ?_, ?_, eq_of_scanned hscan, fun s => ?_⟩
  · intro found rest
    constructor
    · intro hfound
      exact hfound.unique hfinds
    · rintro ⟨rfl, rfl⟩
      exact hfinds
  · intro found rest
    rw [scanned_iff, hblocks, Prod.mk.injEq]
    exact ⟨fun h => ⟨h.1.symm, h.2.symm⟩, fun h => ⟨h.1.symm, h.2.symm⟩⟩
  · have hstands : List.Forall₂ s.Stands bs (bs.map s.replacement) := by
      rw [List.forall₂_map_right_iff]
      exact List.forall₂_same.mpr fun b _ => (stands_iff s b _).mpr rfl
    exact ⟨bs.map s.replacement, hstands, convertBlocks_of_scanned hscan hstands⟩

/-- A block with a backtick in its code, which is written with a backslash and read without,
    and one of another name, which stays as it is written. -/
theorem blockPattern_finds_blocks_escaped :
    let source := "x = afx\x60a\\\x60b\x60; y\x60\\\x60\x60"
    (blocks source.toList).1.map Block.code = [['a', '\\', '\x60', 'b'], ['\\', '\x60']] ∧
      Unescapes ['a', '\\', '\x60', 'b'] ['a', '\x60', 'b'] ∧
      ({} : Settings).convertBlocks source = .ok "x = 'a\x60b'; y\x60\\\x60\x60" := by
  intro source
  have hcode : Unescapes ['a', '\\', '\x60', 'b'] ['a', '\x60', 'b'] :=
    .other (by simp) (.tick (.other (by simp) .nil))
  have hfound : blocks source.toList =
      ([⟨"x = ".toList, "afx".toList, ['a', '\\', '\x60', 'b'], []⟩,
        ⟨"; ".toList, ['y'], ['\\', '\x60'], []⟩], []) := by
    decide +kernel
  rcases blockPattern_finds_blocks source.toList with ⟨bs, tail, hblocks, -, -, -, hconvert⟩
  rw [hfound, Prod.mk.injEq] at hblocks
  rcases hblocks with ⟨rfl, rfl⟩
  refine ⟨by rw [hfound]; rfl, hcode, ?_⟩
  rcases hconvert {} with ⟨results, hstands, htexts, -⟩
  rcases hstands with _ | ⟨⟨hafx, -⟩, hothers⟩
  rcases hothers with _ | ⟨⟨-, hother⟩, hnone⟩
  rcases hnone with _ | _
  rcases hafx rfl with ⟨code, hmeant, rfl⟩
  have hsame : code = ['a', '\x60', 'b'] := by
    rw [← unescapes_iff.mp hmeant, unescapes_iff.mp hcode]
  have hname : ({} : Settings).blockName ≠ .text (String.ofList ['y']) := by
    intro h
    exact absurd (Datum.text.inj h) (by decide)
  have hfusion : ({} : Settings).convert (.text (String.ofList [])) (String.ofList code) =
      .ok "'a\x60b'" := by
    rw [hsame]
    decide +kernel
  rw [hother hname, hfusion] at htexts
  have hresult := htexts ["'a\x60b'", "y\x60\\\x60\x60"] rfl
  rw [String.ofList_toList] at hresult
  rw [hresult]
  decide +kernel

end Fusion

end Afx
