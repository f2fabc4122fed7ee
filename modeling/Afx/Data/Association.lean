/-!
# Association Lists

Records, the children of a tag by their paths, and the files of a tree are all
kept as lists of keys with values. The order of such a list is part of what is
shown: a key stands where it was first given, and has the value that was given
last.

## Main definitions

* `assign`: Gives a key a value.
* `retract`: Takes a key's value away.

## Theorems

* `lookup_assign`: A key has the value it was given, and all others keep theirs.
* `lookup_retract`: A key has no value left, and all others keep theirs.
* `map_fst_assign`: A key that is there keeps its place, and a new one comes last.
-/

namespace Afx

/-- Gives a key a value: in its place if it is there, and else at the end. -/
def assign {α β : Type} [BEq α] (key : α) (value : β) : List (α × β) → List (α × β)
  | [] => [(key, value)]
  | (other, old) :: rest =>
    if other == key then (key, value) :: rest else (other, old) :: assign key value rest

/-- Takes a key's value away. -/
def retract {α β : Type} [BEq α] (key : α) (entries : List (α × β)) : List (α × β) :=
  entries.filter fun entry => entry.1 != key

theorem lookup_assign {α β : Type} [BEq α] [LawfulBEq α] (key wanted : α) (value : β)
    (entries : List (α × β)) :
    (assign key value entries).lookup wanted =
      if wanted == key then some value else entries.lookup wanted := by
  induction entries with
  | nil => by_cases hw : wanted == key <;> simp [assign, List.lookup_cons, hw]
  | cons entry rest ih =>
    obtain ⟨other, old⟩ := entry
    by_cases h : other == key
    · have hok : other = key := by simpa using h
      subst hok
      by_cases hw : wanted == other <;> simp [assign, List.lookup_cons, hw]
    · by_cases hw : wanted == other
      · -- The wanted key is this entry's, so it is not the key that is given a value.
        have hwo : wanted = other := by simpa using hw
        subst hwo
        simp [assign, h]
      · simp [assign, h, List.lookup_cons, hw, ih]

theorem lookup_retract {α β : Type} [BEq α] [LawfulBEq α] (key wanted : α)
    (entries : List (α × β)) :
    (retract key entries).lookup wanted =
      if wanted == key then none else entries.lookup wanted := by
  induction entries with
  | nil => simp [retract]
  | cons entry rest ih =>
    obtain ⟨other, old⟩ := entry
    simp only [retract, beq_iff_eq] at ih
    by_cases h : other = key
    · subst h
      by_cases hw : wanted = other
      · simpa [retract, hw] using ih
      · simpa [retract, hw, List.lookup_cons, beq_eq_false_iff_ne.mpr hw] using ih
    · by_cases hw : wanted = other
      · subst hw
        simp [retract, h]
      · simpa [retract, h, List.lookup_cons, beq_eq_false_iff_ne.mpr hw] using ih

theorem map_fst_assign {α β : Type} [BEq α] [LawfulBEq α] (key : α) (value : β)
    (entries : List (α × β)) :
    (assign key value entries).map Prod.fst =
      if (entries.map Prod.fst).contains key then entries.map Prod.fst
      else entries.map Prod.fst ++ [key] := by
  induction entries with
  | nil => simp [assign]
  | cons entry rest ih =>
    obtain ⟨other, old⟩ := entry
    by_cases h : other = key
    · subst h
      simp [assign]
    · have h' : ¬ key = other := fun e => h e.symm
      simp only [assign, beq_iff_eq, h, if_false, List.map_cons, ih, List.contains_cons,
        beq_eq_false_iff_ne.mpr h', Bool.false_or]
      split <;> simp

end Afx
