import Afx.Fusion.Rendering
import Afx.Proofs.Attributes

/-!
# Fields of a Tag

The attributes of a tag are rendered one by one, with numbers that run through
spreads and groups, and every step may fail. If none does, the fields are those
that `attributeEntries` gives without a budget, from the props and spreads as
they stand: the plain props in front of the first spread, the spreads with what
is behind them, and the meta props at their own names.

Fields are rendered by `collect`, as are children later. What is collected is
known part by part, so it is enough to say what a part can render as.

## Main definitions

* `leaf`: The value of an attribute.
* `attributeEntries`: The entries of the attributes of a tag.
* `Prepared`: What attributes are after they have been arranged.
* `fieldEntries`: The entries of prepared attributes.

## Theorems

* `collect_eq_ok`: What is collected, part by part.
* `field_eq_ok`: The entry of a prepared attribute.
* `fields_eq_ok`: The fields of a tag are the entries of its attributes.
-/

namespace Afx

namespace Fusion

open Markup

/-! ## Entries of attributes -/

/-- The value of an attribute. -/
def leaf : Markup → Value
  | .expression code => .expression code
  | .literal content => .text content
  | .flag set => .boolean set
  | _ => .text ""

/-- Entries for props, each at the path that belongs to its name. -/
def propEntries (path : String → String) (props : List (String × Markup)) :
    List (String × Value) :=
  props.map fun prop => (path prop.1, leaf prop.2)

/-- Entries for the spreads and for the plain props behind each of them, numbered
    together. -/
def mergedEntries (v : Vocabulary) (within : String) : Nat → List Markup → List (String × Value)
  | _, [] => []
  | number, .spread value :: rest =>
    (within ++ "@apply.spread_" ++ toString number, leaf value) ::
      if (leading rest).isEmpty then mergedEntries v within (number + 1) rest
      else
        (within ++ "@apply.spread_" ++ toString (number + 1),
          .object v.dataStructure (propEntries id (leading rest))) ::
          mergedEntries v within (number + 2) rest
  | number, _ :: rest => mergedEntries v within number rest

/-- The entry of a meta prop, whose name is its path. -/
def metaField? : Markup → Option (String × Value)
  | .prop name value => if isMeta name then some (name, leaf value) else none
  | _ => none

/-- The entries of the attributes of a tag. Those of a plain tag are in a place of their
    own, and those of a prototype are not. -/
def attributeEntries (v : Vocabulary) (name : String) (attributes : List Markup) :
    List (String × Value) :=
  let within := if isPrototype name then "" else "attributes."
  propEntries (within ++ ·) (leading (renderedAttributes attributes)) ++
    mergedEntries v within 1 (renderedAttributes attributes) ++
    (renderedAttributes attributes).filterMap metaField?

/-! ## Rendering part by part -/

theorem bind_eq_ok {ε α β : Type} {x : Except ε α} {f : α → Except ε β} {b : β}
    (h : (x >>= f) = .ok b) : ∃ a, x = .ok a ∧ f a = .ok b := by
  cases x with
  | error e => exact absurd h (by simp [bind, Except.bind])
  | ok a => exact ⟨a, rfl, h⟩

/-- If every part that renders does so in the way that is given, all of them do. -/
theorem collect_eq_ok {α β : Type} {render : α → Except Fault (Option β)} {parts : List α}
    {entries : List β} (h : collect render parts = .ok entries) {given : α → Option β}
    (hgiven : ∀ part ∈ parts, ∀ found, render part = .ok found → found = given part) :
    entries = parts.filterMap given := by
  induction parts generalizing entries with
  | nil =>
      rw [collect, Except.ok.injEq] at h
      exact h.symm
  | cons part rest ih =>
      have hrest : ∀ part ∈ rest, ∀ found, render part = .ok found → found = given part :=
        fun part hpart => hgiven part (List.mem_cons_of_mem _ hpart)
      rw [collect] at h
      cases hpart : render part with
      | error fault =>
          rw [hpart] at h
          simp at h
      | ok found =>
          have hfound := hgiven part (by simp) found hpart
          rw [hpart] at h
          cases found with
          | none => rw [List.filterMap_cons_none hfound.symm, ih h hrest]
          | some entry =>
              rcases map_eq_ok h with ⟨others, hothers, rfl⟩
              rw [List.filterMap_cons_some hfound.symm, ih hothers hrest]

/-! ## Fields -/

theorem value_leaf {v : Vocabulary} {n : Nat} {name : String} {one : Markup} {found : Option Value}
    (hone : WellFormedAttribute (.prop name one)) (h : value v n one = .ok found) :
    found = some (leaf one) := by
  cases n with
  | zero => simp [value] at h
  | succ n =>
      rcases wellFormedProp_cases hone with ⟨-, rfl | ⟨content, rfl⟩ | ⟨code, rfl, -⟩⟩
      · exact (Except.ok.inj h).symm
      · exact (Except.ok.inj h).symm
      · exact (Except.ok.inj h).symm

theorem assignment_leaf {v : Vocabulary} {n : Nat} {path name : String} {one : Markup}
    {found : Option (String × Value)} (hone : WellFormedAttribute (.prop name one))
    (h : assignment v n path one = .ok found) : found = some (path, leaf one) := by
  cases n with
  | zero => simp [assignment] at h
  | succ n =>
      rw [assignment] at h
      rcases bind_eq_ok h with ⟨inner, hinner, hfound⟩
      rw [value_leaf hone hinner] at hfound
      exact (Except.ok.inj hfound).symm

/-- The entry of a prepared attribute with this number. -/
def fieldEntry (v : Vocabulary) (within : String) (number : Nat) :
    Markup → Option (String × Value)
  | .prop name value => some (propPath within name, leaf value)
  | .spread value => some (applyPath within number, leaf value)
  | .group props => some (applyPath within number, .object v.dataStructure (propEntries id props))
  | _ => none

/-- An attribute as it is read, or a group of props. -/
def Prepared (attr : Markup) : Prop :=
  WellFormedAttribute attr ∨
    ∃ props, attr = .group props ∧ ∀ prop ∈ props, WellFormedAttribute (.prop prop.1 prop.2)

theorem collection_eq_ok {v : Vocabulary} {n : Nat} {props : List (String × Markup)} {found : Value}
    (hprops : ∀ prop ∈ props, WellFormedAttribute (.prop prop.1 prop.2))
    (h : collection v n props = .ok found) :
    found = .object v.dataStructure (propEntries id props) := by
  cases n with
  | zero => simp [collection] at h
  | succ n =>
      rw [collection] at h
      rcases bind_eq_ok h with ⟨entries, hentries, hobject⟩
      have hmembers := collect_eq_ok hentries
        (fun prop hprop found hfound => assignment_leaf (hprops prop hprop) hfound)
      have hmap : entries = propEntries id props := by
        rw [hmembers, propEntries, ← List.filterMap_eq_map]
        rfl
      rw [← hmap]
      exact (Except.ok.inj hobject).symm

theorem field_eq_ok {v : Vocabulary} {n : Nat} {within : String} {number : Nat} {attr : Markup}
    {found : Option (String × Value)} (hattr : Prepared attr)
    (h : field v n within number attr = .ok found) : found = fieldEntry v within number attr := by
  cases n with
  | zero => simp [field] at h
  | succ n =>
      rcases hattr with hattr | ⟨props, rfl, hprops⟩
      · rcases wellFormedAttribute_cases hattr with ⟨name, one, rfl⟩ | ⟨code, rfl, -⟩
        · rw [field] at h
          exact assignment_leaf hattr h
        · exact (Except.ok.inj h).symm
      · rw [field] at h
        rcases bind_eq_ok h with ⟨rendered, hrendered, hfound⟩
        rw [collection_eq_ok hprops hrendered] at hfound
        exact (Except.ok.inj hfound).symm

theorem mem_numbered {number next : Nat} {attr : Markup} {attributes : List Markup}
    (h : (number, attr) ∈ numbered next attributes) : attr ∈ attributes := by
  induction attributes generalizing next with
  | nil => simp [numbered] at h
  | cons first rest ih =>
      -- The number of the next attribute depends on the first one, but not its place.
      have hcons : ∃ after,
          numbered next (first :: rest) = (next, first) :: numbered after rest := by
        cases first <;> exact ⟨_, rfl⟩
      rcases hcons with ⟨after, hcons⟩
      rw [hcons, List.mem_cons, Prod.mk.injEq] at h
      rcases h with ⟨-, rfl⟩ | h
      · exact List.mem_cons_self
      · exact List.mem_cons_of_mem _ (ih h)

/-- The entries of prepared attributes, the next of which has the given number. -/
def fieldEntries (v : Vocabulary) (within : String) (next : Nat) (attributes : List Markup) :
    List (String × Value) :=
  (numbered next attributes).filterMap fun field => fieldEntry v within field.1 field.2

section Fields

variable (v : Vocabulary) (within : String) (next : Nat)

theorem fieldEntries_prop (name : String) (value : Markup) (rest : List Markup) :
    fieldEntries v within next (.prop name value :: rest) =
      (propPath within name, leaf value) :: fieldEntries v within next rest :=
  rfl

theorem fieldEntries_spread (value : Markup) (rest : List Markup) :
    fieldEntries v within next (.spread value :: rest) =
      (applyPath within next, leaf value) :: fieldEntries v within (next + 1) rest :=
  rfl

theorem fieldEntries_group (props : List (String × Markup)) (rest : List Markup) :
    fieldEntries v within next (.group props :: rest) =
      (applyPath within next, .object v.dataStructure (propEntries id props)) ::
        fieldEntries v within (next + 1) rest :=
  rfl

theorem fieldEntries_leading (attributes rest : List Markup) :
    fieldEntries v within next
        ((leading attributes).map (fun prop => .prop prop.1 prop.2) ++ rest) =
      propEntries (within ++ ·) (leading attributes) ++ fieldEntries v within next rest := by
  fun_induction leading attributes with
  | case1 name value others hmeta ih => exact ih
  | case2 name value others hmeta ih =>
      rw [List.map_cons, List.cons_append, fieldEntries_prop, ih, propPath, if_neg hmeta]
      rfl
  | case3 => rfl

theorem fieldEntries_meta (attributes : List Markup) :
    fieldEntries v within next (attributes.filter isMetaProp) =
      attributes.filterMap metaField? := by
  induction attributes with
  | nil => rfl
  | cons attr rest ih =>
      cases attr with
      | prop name value =>
          by_cases hmeta : isMeta name = true
          · rw [List.filter_cons_of_pos (by simpa [isMetaProp] using hmeta), fieldEntries_prop, ih,
              propPath, if_pos hmeta, List.filterMap_cons_some (by rw [metaField?, if_pos hmeta])]
          · rw [List.filter_cons_of_neg (by simpa [isMetaProp] using hmeta), ih,
              List.filterMap_cons_none (by rw [metaField?, if_neg hmeta])]
      | _ => exact ih

theorem fieldEntries_merged (attributes others : List Markup) :
    fieldEntries v within next (merged attributes ++ others.filter isMetaProp) =
      mergedEntries v within next attributes ++ others.filterMap metaField? := by
  induction attributes generalizing next with
  | nil => exact fieldEntries_meta v within next others
  | cons attr rest ih =>
      cases attr with
      | spread value =>
          rw [merged_spread, List.append_assoc, List.cons_append, fieldEntries_spread,
            mergedEntries, grouped]
          -- A spread uses one number, and a group behind it another.
          by_cases hnone : (leading rest).isEmpty = true
          · rw [if_pos hnone, if_pos hnone, List.nil_append, ih, List.cons_append, applyPath]
          · rw [if_neg hnone, if_neg hnone, List.singleton_append, fieldEntries_group, ih,
              List.cons_append, List.cons_append, applyPath, applyPath]
      | _ => exact ih next

end Fields

/-! ## All fields of a tag -/

theorem mem_leading {attributes : List Markup} {prop : String × Markup}
    (h : prop ∈ leading attributes) : .prop prop.1 prop.2 ∈ attributes := by
  fun_induction leading attributes with
  | case1 name value rest _ ih => exact List.mem_cons_of_mem _ (ih h)
  | case2 name value rest _ ih =>
      rcases List.mem_cons.mp h with rfl | h
      · exact List.mem_cons_self
      · exact List.mem_cons_of_mem _ (ih h)
  | case3 => simp at h

theorem isMeta_of_mem_leading {attributes : List Markup} {prop : String × Markup}
    (h : prop ∈ leading attributes) : isMeta prop.1 = false := by
  fun_induction leading attributes with
  | case1 name value rest _ ih => exact ih h
  | case2 name value rest hplain ih =>
      rcases List.mem_cons.mp h with rfl | h
      · simpa using hplain
      · exact ih h
  | case3 => simp at h

/-- What is merged is a spread among the attributes, or a group of plain props among them. -/
theorem mem_merged {attributes : List Markup} {attr : Markup} (h : attr ∈ merged attributes) :
    (∃ value, attr = .spread value ∧ .spread value ∈ attributes) ∨
      ∃ props, attr = .group props ∧ props ≠ [] ∧
        ∀ prop ∈ props, isMeta prop.1 = false ∧ .prop prop.1 prop.2 ∈ attributes := by
  -- What stands behind the first attribute stands among all of them.
  have hcons : ∀ {first : Markup} {rest : List Markup},
      ((∃ value, attr = .spread value ∧ .spread value ∈ rest) ∨
        ∃ props, attr = .group props ∧ props ≠ [] ∧
          ∀ prop ∈ props, isMeta prop.1 = false ∧ .prop prop.1 prop.2 ∈ rest) →
      (∃ value, attr = .spread value ∧ .spread value ∈ first :: rest) ∨
        ∃ props, attr = .group props ∧ props ≠ [] ∧
          ∀ prop ∈ props, isMeta prop.1 = false ∧ .prop prop.1 prop.2 ∈ first :: rest := by
    rintro first rest (⟨value, hvalue, hmem⟩ | ⟨props, hprops, hne, hmem⟩)
    · exact Or.inl ⟨value, hvalue, List.mem_cons_of_mem _ hmem⟩
    · exact Or.inr ⟨props, hprops, hne, fun prop hprop =>
        ⟨(hmem prop hprop).1, List.mem_cons_of_mem _ (hmem prop hprop).2⟩⟩
  fun_induction merged attributes with
  | case1 => simp at h
  | case2 value rest ih =>
      rw [List.cons_append, List.mem_cons, List.mem_append] at h
      rcases h with rfl | h | h
      · exact Or.inl ⟨value, rfl, List.mem_cons_self⟩
      · unfold grouped at h
        by_cases hnone : (leading rest).isEmpty = true
        · simp [hnone] at h
        · rw [if_neg hnone, List.mem_singleton] at h
          exact hcons (Or.inr ⟨leading rest, h, by simpa using hnone, fun prop hprop =>
            ⟨isMeta_of_mem_leading hprop, mem_leading hprop⟩⟩)
      · exact hcons (ih h)
  | case3 first rest hother ih => exact hcons (ih h)

/-- What holds for attributes holds for them where they are arranged, in a group or not. -/
theorem kept_arranged {P : Markup → Prop} {attributes : List Markup}
    (hattributes : ∀ attr ∈ attributes, IsAttribute attr) (h : ∀ attr ∈ attributes, P attr) :
    ∀ attr ∈ arranged attributes,
      P attr ∨ ∃ props, attr = .group props ∧ ∀ prop ∈ props, P (.prop prop.1 prop.2) := by
  intro attr hattr
  rw [arranged_eq hattributes, List.mem_append, List.mem_append, List.mem_map] at hattr
  rcases hattr with (⟨prop, hprop, rfl⟩ | hattr) | hattr
  · exact Or.inl (h _ (mem_leading hprop))
  · rcases mem_merged hattr with ⟨value, rfl, hmem⟩ | ⟨props, rfl, -, hprops⟩
    · exact Or.inl (h _ hmem)
    · exact Or.inr ⟨props, rfl, fun prop hprop => h _ (hprops prop hprop).2⟩
  · exact Or.inl (h attr (List.mem_filter.mp hattr).1)

theorem prepared_arranged {attributes : List Markup}
    (h : ∀ attr ∈ attributes, WellFormedAttribute attr) :
    ∀ attr ∈ arranged attributes, Prepared attr :=
  kept_arranged (fun attr hattr => isAttribute_of_wellFormed (h attr hattr)) h

theorem fieldEntries_arranged (v : Vocabulary) (name : String) {attributes : List Markup}
    (h : ∀ attr ∈ renderedAttributes attributes, IsAttribute attr) :
    fieldEntries v (scope name) 1 (arranged (renderedAttributes attributes)) =
      attributeEntries v name attributes := by
  rw [arranged_eq h, List.append_assoc, fieldEntries_leading, fieldEntries_merged,
    attributeEntries, List.append_assoc, scope]

/-- The fields of a tag are the entries of its attributes. -/
theorem fields_eq_ok {v : Vocabulary} {n : Nat} {name : String} {attributes : List Markup}
    {entries : List (String × Value)} (hattributes : ∀ attr ∈ attributes, WellFormedAttribute attr)
    (h : collect (fun (number, attr) => field v n (scope name) number attr)
      (numbered 1 (arranged (renderedAttributes attributes))) = .ok entries) :
    entries = attributeEntries v name attributes := by
  have hrendered := wellFormedAttribute_rendered hattributes
  have hentries : entries =
      fieldEntries v (scope name) 1 (arranged (renderedAttributes attributes)) := by
    refine collect_eq_ok h fun part hpart found hfound => ?_
    exact field_eq_ok (prepared_arranged hrendered _ (mem_numbered hpart)) hfound
  rw [hentries, fieldEntries_arranged v name fun attr hmem =>
    isAttribute_of_wellFormed (hrendered attr hmem)]

end Fusion

end Afx
