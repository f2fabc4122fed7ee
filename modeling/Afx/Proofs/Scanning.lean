import Afx.Loop
import Afx.Proofs.Lexemes

/-!
# Loops Over Quoted Values and Code

Quoted values and code between braces are read by recursion on the source, one
character after another, and the reader of code is an automaton. The same readings
are loops that look at what is left, take something off its front and go on. A loop
over code does not follow quotations itself: it leaves each of them to a loop of its
own, which only looks for the closing quote, and it cuts the code out of the source
when it has found the brace at its end.

The loops make the single turns visible, which recursion hides. Here is that each of
their turns takes at least one character, so that they end, and that they give what
the readers give.

## Main definitions

* `Takes`: What is left of a text after at least one character.
* `quotationLoop`: The loop over a quoted value.
* `skipLoop`: The loop to the end of a quotation in code.
* `codeLoop`: The loop over code.

## Theorems

* `Unquoting.takes_of_next`, `takes_of_skipTurn`, `Delimiting.takes_of_next`: Every
  turn takes at least one character.
* `toOption_run_quotationLoop`: The loop over a quoted value reads it.
* `skipLoop_cases`: Skipping a quotation leads the automaton back to code.
* `toOption_run_codeLoop`: The loop over code delimits it as the automaton does.
-/

namespace Afx

namespace Markup

/-! ## Progress -/

/-- `t` is left of `s` after at least one character was taken. -/
def Takes (s t : List Char) : Prop :=
  ∃ piece, piece ≠ [] ∧ s = piece ++ t

theorem takes_cons (c : Char) (s : List Char) : Takes (c :: s) s :=
  ⟨[c], by simp, rfl⟩

theorem Takes.suffix {s t : List Char} (h : Takes s t) : t <:+ s := by
  rcases h with ⟨piece, -, rfl⟩
  exact List.suffix_append piece t

theorem Takes.length_lt {s t : List Char} (h : Takes s t) : t.length < s.length := by
  rcases h with ⟨piece, hne, rfl⟩
  have hpiece := List.length_pos_iff.mpr hne
  rw [List.length_append]
  omega

theorem takes_of_suffix {s t : List Char} (h : t <:+ s) (hlt : t.length < s.length) :
    Takes s t := by
  rcases h with ⟨piece, rfl⟩
  refine ⟨piece, ?_, rfl⟩
  rintro rfl
  exact Nat.lt_irrefl _ hlt

theorem Takes.suffix_trans {s t u : List Char} (h : Takes s t) (hu : u <:+ t) : Takes s u :=
  takes_of_suffix (hu.trans h.suffix) (Nat.lt_of_le_of_lt hu.length_le h.length_lt)

theorem Takes.of_suffix {s t u : List Char} (ht : t <:+ s) (h : Takes t u) : Takes s u :=
  takes_of_suffix (h.suffix.trans ht) (Nat.lt_of_lt_of_le h.length_lt ht.length_le)

/-! ## Quoted values -/

/-- A quoted value as far as it was read, last character first, and what is left. -/
structure Unquoting where
  done : List Char
  rest : List Char

/-- One character of a quoted value, or the quote that ends it. -/
def Unquoting.turn (quote : Char) (u : Unquoting) :
    Except Unit (Turn Unquoting (List Char × List Char)) :=
  match u.rest with
  | [] => .error ()
  | c :: rest =>
    if c == '\\' then
      match rest with
      | [] => .error ()
      | d :: left => .ok (.next ⟨d :: u.done, left⟩)
    else if c == quote then .ok (.stop (u.done.reverse, rest))
    else .ok (.next ⟨c :: u.done, rest⟩)

theorem Unquoting.takes_of_next {quote : Char} {u v : Unquoting}
    (h : u.turn quote = .ok (.next v)) : Takes u.rest v.rest := by
  rcases u with ⟨done, _ | ⟨c, rest⟩⟩
  · simp [turn] at h
  · simp only [turn] at h
    split at h
    · -- A backslash takes the character behind it along.
      cases rest with
      | nil => simp at h
      | cons d left =>
          simp only [Except.ok.injEq, Turn.next.injEq] at h
          subst h
          exact (takes_cons c (d :: left)).suffix_trans (List.suffix_cons d left)
    · split at h
      · simp at h
      · simp only [Except.ok.injEq, Turn.next.injEq] at h
        subst h
        exact takes_cons c rest

/-- The loop over a quoted value, up to its closing quote. -/
def quotationLoop (quote : Char) : Loop Unquoting Unit (List Char × List Char) where
  turn := Unquoting.turn quote
  weight u := u.rest.length
  lowers h := (Unquoting.takes_of_next h).length_lt

/-- The loop over a quoted value reads it. No value is quoted by backslashes. -/
theorem toOption_run_quotationLoop {quote : Char} (hslash : quote ≠ '\\') (done s : List Char) :
    ((quotationLoop quote).run ⟨done, s⟩).toOption = quotation quote done s := by
  fun_induction quotation quote done s with
  | case1 done =>
      rw [Loop.run_of_error (e := ()) rfl]
      rfl
  | case2 done c rest ih =>
      rw [Loop.run_of_next (t := ⟨c :: done, rest⟩) rfl]
      exact ih
  | case3 done c rest hpair hc =>
      have hcq : c = quote := by simpa using hc
      have hturn : (quotationLoop quote).turn ⟨done, c :: rest⟩ =
          .ok (.stop (done.reverse, rest)) := by
        simp [quotationLoop, Unquoting.turn, hcq, hslash]
      rw [Loop.run_of_stop hturn]
      rfl
  | case4 done c rest hpair hc hcs =>
      -- The backslash is the last character.
      have hcs : c = '\\' := by simpa using hcs
      cases rest with
      | nil =>
          have hturn : (quotationLoop quote).turn ⟨done, [c]⟩ = .error () := by
            simp [quotationLoop, Unquoting.turn, hcs]
          rw [Loop.run_of_error hturn]
          rfl
      | cons d left => exact absurd rfl (hpair d left hcs)
  | case5 done c rest hpair hc hcs ih =>
      have hturn : (quotationLoop quote).turn ⟨done, c :: rest⟩ =
          .ok (.next ⟨c :: done, rest⟩) := by
        simp only [quotationLoop, Unquoting.turn]
        rw [if_neg hcs, if_neg hc]
      rw [Loop.run_of_next hturn]
      exact ih

/-! ## Quotations in code -/

/-- One character of a quotation in code, with the one that it protects. -/
def skipTurn (quote : Char) : List Char → Except Unit (Turn (List Char) (List Char))
  | [] => .error ()
  | c :: rest =>
    -- At the end of the source, a backslash has nothing to protect.
    if c == '\\' then .ok (.next (rest.drop 1))
    else if c == quote then .ok (.stop rest)
    else .ok (.next rest)

theorem takes_of_skipTurn {quote : Char} {s t : List Char}
    (h : skipTurn quote s = .ok (.next t)) : Takes s t := by
  cases s with
  | nil => simp [skipTurn] at h
  | cons c rest =>
      simp only [skipTurn] at h
      split at h
      · simp only [Except.ok.injEq, Turn.next.injEq] at h
        subst h
        exact (takes_cons c rest).suffix_trans (List.drop_suffix 1 rest)
      · split at h
        · simp at h
        · simp only [Except.ok.injEq, Turn.next.injEq] at h
          subst h
          exact takes_cons c rest

/-- The loop to the end of a quotation in code. -/
def skipLoop (quote : Char) : Loop (List Char) Unit (List Char) where
  turn := skipTurn quote
  weight s := s.length
  lowers h := (takes_of_skipTurn h).length_lt

theorem bracedFrom_of_next {state after : CodeState} {c : Char} (h : state.next c = some after)
    (done rest : List Char) :
    bracedFrom state done (c :: rest) = bracedFrom after (c :: done) rest := by
  rw [bracedFrom, h]

/-- What one turn in a quotation does, and where it leaves the automaton. -/
theorem skipTurn_cases (quote : Char) (s : List Char) :
    (skipTurn quote s = .error () ∧
      ∀ depth done, bracedFrom (.quoted depth quote) done s = none) ∨
    (∃ left, s = quote :: left ∧ skipTurn quote s = .ok (.stop left) ∧
      ∀ depth done, bracedFrom (.quoted depth quote) done s =
        bracedFrom (.code depth) (quote :: done) left) ∨
    (∃ piece t, s = piece ++ t ∧ skipTurn quote s = .ok (.next t) ∧
      ∀ depth done, bracedFrom (.quoted depth quote) done s =
        bracedFrom (.quoted depth quote) (piece.reverse ++ done) t) := by
  cases s with
  | nil => exact Or.inl ⟨rfl, fun _ _ => rfl⟩
  | cons c rest =>
      by_cases hslash : c = '\\'
      · -- The character behind the backslash goes with it, if there is one.
        subst hslash
        refine Or.inr (Or.inr ⟨'\\' :: rest.take 1, rest.drop 1, ?_, rfl, fun depth done => ?_⟩)
        · rw [List.cons_append, List.take_append_drop]
        · rw [bracedFrom_of_next (CodeState.next_quoted_slash depth quote)]
          cases rest with
          | nil => rfl
          | cons d left => exact bracedFrom_of_next (CodeState.next_escaped depth quote d) _ left
      · by_cases hquote : c = quote
        · subst hquote
          refine Or.inr (Or.inl ⟨rest, rfl, by simp [skipTurn, hslash], fun depth done => ?_⟩)
          exact bracedFrom_of_next (CodeState.next_quoted_quote depth hslash) done rest
        · refine Or.inr (Or.inr ⟨[c], rest, rfl, by simp [skipTurn, hslash, hquote],
            fun depth done => ?_⟩)
          exact bracedFrom_of_next (CodeState.next_quoted_plain depth hquote hslash) done rest

/-- Skipping a quotation leads the automaton back to the code around it, and where no
    end of the quotation is found, the automaton finds no end of the code. -/
theorem skipLoop_cases (quote : Char) (s : List Char) :
    ((skipLoop quote).run s = .error () ∧
      ∀ depth done, bracedFrom (.quoted depth quote) done s = none) ∨
    ∃ passed left, s = passed ++ left ∧ (skipLoop quote).run s = .ok left ∧
      ∀ depth done, bracedFrom (.quoted depth quote) done s =
        bracedFrom (.code depth) (passed.reverse ++ done) left := by
  induction hlength : s.length using Nat.strongRecOn generalizing s with
  | ind n ih =>
      rcases skipTurn_cases quote s with ⟨hturn, hnone⟩ | ⟨left, hs, hturn, hleft⟩ |
        ⟨piece, t, hs, hturn, ht⟩
      · exact Or.inl ⟨Loop.run_of_error hturn, hnone⟩
      · exact Or.inr ⟨[quote], left, hs, Loop.run_of_stop hturn, hleft⟩
      · have hrun : (skipLoop quote).run s = (skipLoop quote).run t := Loop.run_of_next hturn
        have hlt : t.length < n := hlength ▸ (takes_of_skipTurn hturn).length_lt
        rw [hrun]
        rcases ih _ hlt t rfl with ⟨hfail, hnone⟩ | ⟨passed, left, hpassed, hleft, hback⟩
        · exact Or.inl ⟨hfail, fun depth done => (ht depth done).trans (hnone depth _)⟩
        · refine Or.inr ⟨piece ++ passed, left, ?_, hleft, fun depth done => ?_⟩
          · rw [hs, hpassed, List.append_assoc]
          · rw [ht, hback, List.reverse_append, List.append_assoc]

/-! ## Code -/

/-- The braces that are open in code, and what is left. -/
structure Delimiting where
  depth : Nat
  rest : List Char

/-- One character or one quotation of code that starts with `start`, or the brace that
    ends it. -/
def Delimiting.turn (start : List Char) (d : Delimiting) :
    Except Unit (Turn Delimiting (List Char × List Char)) :=
  match d.rest with
  | [] => .error ()
  | c :: rest =>
    if isCodeQuote c then
      match (skipLoop c).run rest with
      | .ok left => .ok (.next ⟨d.depth, left⟩)
      | .error e => .error e
    else if c == '\x7b' then .ok (.next ⟨d.depth + 1, rest⟩)
    else if c == '\x7d' then
      if d.depth = 0 then .ok (.stop (start.take (start.length - d.rest.length), rest))
      else .ok (.next ⟨d.depth - 1, rest⟩)
    else .ok (.next ⟨d.depth, rest⟩)

theorem Delimiting.takes_of_next {start : List Char} {d e : Delimiting}
    (h : d.turn start = .ok (.next e)) : Takes d.rest e.rest := by
  rcases d with ⟨depth, _ | ⟨c, rest⟩⟩
  · simp [turn] at h
  · have hone : ∀ {inner}, (⟨inner, rest⟩ : Delimiting) = e → Takes (c :: rest) e.rest := by
      rintro inner rfl
      exact takes_cons c rest
    simp only [turn] at h
    split at h
    · -- A quotation is taken as a whole, after its opening quote.
      rcases skipLoop_cases c rest with ⟨hrun, -⟩ | ⟨skipped, left, hs, hrun, -⟩
      · simp [hrun] at h
      · simp only [hrun, Except.ok.injEq, Turn.next.injEq] at h
        subst h
        exact (takes_cons c rest).suffix_trans ⟨skipped, hs.symm⟩
    · split at h
      · exact hone (by simpa using h)
      · split at h
        · split at h
          · simp at h
          · exact hone (by simpa using h)
        · exact hone (by simpa using h)

/-- The loop over code that starts with `start`, up to the brace at its end. -/
def codeLoop (start : List Char) : Loop Delimiting Unit (List Char × List Char) where
  turn := Delimiting.turn start
  weight d := d.rest.length
  lowers h := (Delimiting.takes_of_next h).length_lt

/-- What one turn over code does, and where it leaves the automaton. What was passed
    before is the code as far as it was read. -/
theorem Delimiting.turn_cases (depth : Nat) (passed s : List Char) :
    (turn (passed ++ s) ⟨depth, s⟩ = .error () ∧
      bracedFrom (.code depth) passed.reverse s = none) ∨
    (∃ left, turn (passed ++ s) ⟨depth, s⟩ = .ok (.stop (passed, left)) ∧
      bracedFrom (.code depth) passed.reverse s = some (passed, left)) ∨
    (∃ piece t inner, s = piece ++ t ∧
      turn (passed ++ s) ⟨depth, s⟩ = .ok (.next ⟨inner, t⟩) ∧
      bracedFrom (.code depth) passed.reverse s =
        bracedFrom (.code inner) (passed ++ piece).reverse t) := by
  cases s with
  | nil => exact Or.inl ⟨rfl, rfl⟩
  | cons c rest =>
      by_cases hquote : isCodeQuote c = true
      · have hopen :=
          bracedFrom_of_next (CodeState.next_code_quote depth hquote) passed.reverse rest
        rcases skipLoop_cases c rest with ⟨hrun, hnone⟩ | ⟨skipped, left, hs, hrun, hback⟩
        · exact Or.inl ⟨by simp [turn, hquote, hrun], hopen.trans (hnone depth _)⟩
        · refine Or.inr (Or.inr ⟨c :: skipped, left, depth, by rw [hs]; rfl,
            by simp [turn, hquote, hrun], ?_⟩)
          rw [hopen, hback]
          simp
      · have hone : (passed ++ [c]).reverse = c :: passed.reverse := by simp
        by_cases hopen : c = '\x7b'
        · subst hopen
          exact Or.inr (Or.inr ⟨['\x7b'], rest, depth + 1, rfl, rfl,
            hone ▸ bracedFrom_of_next (CodeState.next_code_open depth) _ rest⟩)
        · by_cases hclose : c = '\x7d'
          · subst hclose
            cases depth with
            | zero =>
                -- The code is what was passed since its start.
                refine Or.inr (Or.inl ⟨rest, ?_, ?_⟩)
                · simp [turn, isCodeQuote]
                · simp [bracedFrom, CodeState.next, isCodeQuote]
            | succ depth =>
                exact Or.inr (Or.inr ⟨['\x7d'], rest, depth, rfl, rfl,
                  hone ▸ bracedFrom_of_next (CodeState.next_code_close depth) _ rest⟩)
          · have hplain : isCodeQuote c = false := by simpa using hquote
            refine Or.inr (Or.inr ⟨[c], rest, depth, rfl,
              by simp [turn, hplain, hopen, hclose], ?_⟩)
            rw [hone]
            exact bracedFrom_of_next (CodeState.next_code_plain depth hplain hopen hclose) _ rest

/-- The loop over code delimits it as the automaton does. -/
theorem toOption_run_codeLoop (depth : Nat) (passed s : List Char) :
    ((codeLoop (passed ++ s)).run ⟨depth, s⟩).toOption =
      bracedFrom (.code depth) passed.reverse s := by
  induction hlength : s.length using Nat.strongRecOn generalizing depth passed s with
  | ind n ih =>
      rcases Delimiting.turn_cases depth passed s with ⟨hturn, hnone⟩ | ⟨left, hturn, hleft⟩ |
        ⟨piece, t, inner, rfl, hturn, ht⟩
      · have hrun : (codeLoop (passed ++ s)).run ⟨depth, s⟩ = .error () := Loop.run_of_error hturn
        rw [hrun, hnone]
        rfl
      · have hrun : (codeLoop (passed ++ s)).run ⟨depth, s⟩ = .ok (passed, left) :=
          Loop.run_of_stop hturn
        rw [hrun, hleft]
        rfl
      · have hrun : (codeLoop (passed ++ (piece ++ t))).run ⟨depth, piece ++ t⟩ =
            (codeLoop (passed ++ (piece ++ t))).run ⟨inner, t⟩ := Loop.run_of_next hturn
        have hlt : t.length < n := hlength ▸ (Delimiting.takes_of_next hturn).length_lt
        rw [hrun, ht, ← List.append_assoc]
        exact ih _ hlt inner (passed ++ piece) t rfl

end Markup

end Afx
