/-!
# Loops That Make Progress

Reading a text is a loop: look at what is left, take a piece off its front,
go on. Such a loop ends because every turn leaves less to read. `Loop` keeps
one turn together with the weight that it lowers and the proof that it does,
so that running it is a total function without a bound that could run out:
the number of turns allowed is the weight plus one, and the case in which none
is left is refuted by the proof that is carried along.

## Main definitions

* `Turn`: What one turn does, go on or stop.
* `Loop`: A turn, a weight, and the proof that going on lowers the weight.
* `Loop.run`: The result of turning until the loop stops or fails.

## Theorems

* `Loop.runWithin_eq`: The bound on the number of turns does not matter.
* `Loop.run_of_error`, `Loop.run_of_stop`, `Loop.run_of_next`: Running is one
  turn, followed by running what is left.
* `Loop.result_of_run`: What every turn keeps holds at the end.
-/

namespace Afx

/-- One turn of a loop goes on from a new state or stops with a result. -/
inductive Turn (σ α : Type) where
  | next (state : σ)
  | stop (result : α)

/-- A loop whose every turn fails, stops, or lowers the weight of its state. -/
structure Loop (σ ε α : Type) where
  turn : σ → Except ε (Turn σ α)
  weight : σ → Nat
  lowers : ∀ {s t}, turn s = .ok (.next t) → weight t < weight s

namespace Loop

variable {σ ε α : Type}

/-- Runs the loop from a state whose weight is below the bound. -/
def runWithin (loop : Loop σ ε α) : (bound : Nat) → (s : σ) → loop.weight s < bound → Except ε α
  | 0, _, h => absurd h (Nat.not_lt_zero _)
  | bound + 1, s, h =>
    match ht : loop.turn s with
    | .error e => .error e
    | .ok (.stop a) => .ok a
    | .ok (.next t) => loop.runWithin bound t (by have := loop.lowers ht; omega)

/-- The result of turning until the loop stops or fails. -/
def run (loop : Loop σ ε α) (s : σ) : Except ε α :=
  loop.runWithin (loop.weight s + 1) s (Nat.lt_succ_self _)

theorem runWithin_eq (loop : Loop σ ε α) (b b' : Nat) (s : σ)
    (h : loop.weight s < b) (h' : loop.weight s < b') :
    loop.runWithin b s h = loop.runWithin b' s h' := by
  induction b generalizing b' s with
  | zero => omega
  | succ b ih =>
    cases b' with
    | zero => omega
    | succ b' =>
      -- Both runs take the same turn, and only the runs after it differ in their bounds.
      simp only [runWithin]
      split
      · rfl
      · rfl
      · exact ih _ _ _ _

theorem run_of_error {loop : Loop σ ε α} {s : σ} {e : ε} (h : loop.turn s = .error e) :
    loop.run s = .error e := by
  rw [run, runWithin]
  split <;> simp_all

theorem run_of_stop {loop : Loop σ ε α} {s : σ} {a : α} (h : loop.turn s = .ok (.stop a)) :
    loop.run s = .ok a := by
  rw [run, runWithin]
  split <;> simp_all

theorem run_of_next {loop : Loop σ ε α} {s t : σ} (h : loop.turn s = .ok (.next t)) :
    loop.run s = loop.run t := by
  rw [run, runWithin]
  split
  · simp_all
  · simp_all
  · rename_i u hu
    -- The turn is known, so the run goes on from `t`, only within another bound.
    have hut : u = t := by simpa [hu] using h
    subst hut
    exact runWithin_eq loop _ _ u _ _

/-- What every turn keeps holds at the end: if going on keeps `P`, and stopping
    from a state with `P` gives a result with `Q`, then results have `Q`. -/
theorem result_of_run {loop : Loop σ ε α} {P : σ → Prop} {Q : α → Prop}
    (hnext : ∀ {s t}, P s → loop.turn s = .ok (.next t) → P t)
    (hstop : ∀ {s a}, P s → loop.turn s = .ok (.stop a) → Q a)
    {s : σ} {a : α} (hs : P s) (h : loop.run s = .ok a) : Q a := by
  induction hw : loop.weight s using Nat.strongRecOn generalizing s with
  | ind n ih =>
    match ht : loop.turn s with
    | .error e => simp [run_of_error ht] at h
    | .ok (.stop b) =>
      rw [run_of_stop ht, Except.ok.injEq] at h
      exact h ▸ hstop hs ht
    | .ok (.next t) =>
      -- What is left to run has a lower weight, and still has `P`.
      rw [run_of_next ht] at h
      exact ih _ (hw ▸ loop.lowers ht) (hnext hs ht) h rfl

end Loop

end Afx
