import Afx.Fusion.Attributes
import Afx.Proofs.Printing

/-!
# Prepared Attributes in Closed Form

The attributes of a tag are prepared by walks that carry what they have seen:
the last directive for the children, the props that wait behind a spread, and
the meta props that come at the end. Here the results of these walks are given
by the attributes alone. Directives are filtered out. Of what is left, the plain
props in front of the first spread come first, then every spread with a group
of the plain props between it and the next, and then the meta props.

Both forms are about attributes as they are read, which are props and spreads.
A group that is already among the attributes is kept where it stands, but it
does not separate the props around it.

## Main definitions

* `textOf?`: The text of a directive that has one.
* `directive?`: The text of the last directive of a name.
* `isDirective`, `isRendered`: The attributes that are taken out, and the others.
* `leading`: The plain props in front of the first spread.
* `merged`: The spreads, each with a group of the plain props behind it.

## Theorems

* `prepared_eq_ok`: What is prepared, by the attributes alone.
* `arranged_eq`: The order of props and spreads in closed form.
* `wellFormedAttribute_expanded`: Numbered shorthands are well-formed props.
-/

namespace Afx

namespace Fusion

open Markup

theorem map_eq_ok {ε α β : Type} {x : Except ε α} {f : α → β} {b : β} (h : x.map f = .ok b) :
    ∃ a, x = .ok a ∧ f a = b := by
  cases x with
  | error e => simp [Except.map] at h
  | ok a => exact ⟨a, rfl, by simpa [Except.map] using h⟩

/-! ## Directives -/

/-- The text of a directive that has one. -/
def textOf? : Markup → Option String
  | .literal content => some content
  | _ => none

/-- The text of the last directive of a name. -/
def directive? (name : String) (attributes : List Markup) : Option String :=
  (lastProp? name attributes).bind textOf?

/-- A directive, which says where a tag or its children go. -/
def isDirective (name : String) : Bool :=
  isParentDirective name || name == childrenDirective

/-- An attribute that is no directive. -/
def isRendered : Markup → Bool
  | .prop name _ => !isDirective name
  | _ => true

theorem payload_eq_ok {directive : String} {value : Markup} {text : String}
    (h : payload directive value = .ok text) : textOf? value = some text := by
  cases value <;> simp_all [payload, textOf?]

/-- The last of several props of one name is the last behind the first attribute,
    or else the first attribute. -/
theorem lastProp?_cons (name : String) (attr : Markup) (rest : List Markup) :
    lastProp? name (attr :: rest) = (lastProp? name rest).or (valueOf? name attr) := by
  unfold lastProp?
  cases hvalue : valueOf? name attr with
  | none => simp [hvalue]
  | some value =>
      rw [List.filterMap_cons_some hvalue, List.getLast?_cons]
      cases (rest.filterMap (valueOf? name)).getLast? <;> rfl

theorem valueOf?_prop_of_ne {name other : String} (h : other ≠ name) (value : Markup) :
    valueOf? name (.prop other value) = none := by
  simp [valueOf?, h]

/-- The walk takes every directive out, and finds the last one for the children. -/
theorem withoutDirectivesFrom_eq_ok {children found : Option String} {attributes kept : List Markup}
    (h : withoutDirectivesFrom children attributes = .ok (kept, found)) :
    kept = attributes.filter isRendered ∧
      found = ((lastProp? childrenDirective attributes).map textOf?).getD children := by
  fun_induction withoutDirectivesFrom children attributes generalizing kept found with
  | case1 children =>
      rw [Except.ok.injEq, Prod.mk.injEq] at h
      exact ⟨h.1.symm, h.2.symm⟩
  | case2 children name value rest hparent _ _ ih =>
      -- A directive for the parent is taken out, and says nothing about children.
      have hname : name ≠ childrenDirective := by
        rintro rfl
        exact absurd hparent (by decide)
      rcases ih h with ⟨hkept, hfound⟩
      rw [lastProp?_cons, valueOf?_prop_of_ne hname, Option.or_none,
        List.filter_cons_of_neg (by simp [isRendered, isDirective, hparent])]
      exact ⟨hkept, hfound⟩
  | case3 => simp at h
  | case4 children name value rest _ hchildren path hpayload ih =>
      -- A directive behind this one takes its place.
      rcases ih h with ⟨hkept, hfound⟩
      rw [lastProp?_cons, List.filter_cons_of_neg (by simp [isRendered, isDirective, hchildren])]
      refine ⟨hkept, ?_⟩
      rw [hfound, valueOf?, if_pos hchildren]
      cases lastProp? childrenDirective rest with
      | none => simp [payload_eq_ok hpayload]
      | some other => simp
  | case5 => simp at h
  | case6 children name value rest hparent hchildren ih =>
      -- A prop that is no directive stays.
      rcases map_eq_ok h with ⟨⟨kept', found'⟩, hrest, hpair⟩
      rw [Prod.mk.injEq] at hpair
      rcases ih hrest with ⟨hkept, hfound⟩
      rw [lastProp?_cons, valueOf?_prop_of_ne (by simpa using hchildren), Option.or_none,
        List.filter_cons_of_pos (by simp [isRendered, isDirective, hparent, hchildren])]
      exact ⟨by rw [← hpair.1, hkept], by rw [← hpair.2, hfound]⟩
  | case7 children other rest hother ih =>
      rcases map_eq_ok h with ⟨⟨kept', found'⟩, hrest, hpair⟩
      rw [Prod.mk.injEq] at hpair
      rcases ih hrest with ⟨hkept, hfound⟩
      have hvalue : valueOf? childrenDirective other = none := by
        cases other with
        | prop name value => exact absurd rfl (hother name value)
        | _ => rfl
      have hrendered : isRendered other = true := by
        cases other with
        | prop name value => exact absurd rfl (hother name value)
        | _ => rfl
      rw [lastProp?_cons, hvalue, Option.or_none, List.filter_cons_of_pos hrendered]
      exact ⟨by rw [← hpair.1, hkept], by rw [← hpair.2, hfound]⟩

/-! ## The order of attributes -/

/-- An attribute as it is read: a prop or a spread. -/
def IsAttribute : Markup → Prop
  | .prop _ _ => True
  | .spread _ => True
  | _ => False

theorem isAttribute_cases {attr : Markup} (h : IsAttribute attr) :
    (∃ name value, attr = .prop name value) ∨ ∃ value, attr = .spread value := by
  cases attr with
  | prop name value => exact Or.inl ⟨name, value, rfl⟩
  | spread value => exact Or.inr ⟨value, rfl⟩
  | _ => exact False.elim h

/-- A prop whose name belongs to a meta path. -/
def isMetaProp : Markup → Bool
  | .prop name _ => isMeta name
  | _ => false

/-- The plain props in front of the first spread. -/
def leading : List Markup → List (String × Markup)
  | .prop name value :: rest =>
    if isMeta name then leading rest else (name, value) :: leading rest
  | _ => []

/-- A group of props, unless there are none. -/
def grouped (props : List (String × Markup)) : List Markup :=
  if props.isEmpty then [] else [.group props]

/-- The spreads, each with a group of the plain props behind it. -/
def merged : List Markup → List Markup
  | [] => []
  | .spread value :: rest => .spread value :: grouped (leading rest) ++ merged rest
  | _ :: rest => merged rest

theorem leading_meta {name : String} (h : isMeta name = true) (value : Markup)
    (rest : List Markup) : leading (.prop name value :: rest) = leading rest := by
  rw [leading, if_pos h]

theorem leading_plain {name : String} (h : ¬ isMeta name = true) (value : Markup)
    (rest : List Markup) :
    leading (.prop name value :: rest) = (name, value) :: leading rest := by
  rw [leading, if_neg h]

theorem leading_spread (value : Markup) (rest : List Markup) :
    leading (.spread value :: rest) = [] :=
  rfl

theorem merged_prop (name : String) (value : Markup) (rest : List Markup) :
    merged (.prop name value :: rest) = merged rest :=
  rfl

theorem merged_spread (value : Markup) (rest : List Markup) :
    merged (.spread value :: rest) = .spread value :: grouped (leading rest) ++ merged rest :=
  rfl

namespace Arrangement

/-- All attributes of an arrangement, in their order. -/
def result (a : Arrangement) : List Markup :=
  a.flushed.reverse ++ a.deferred.reverse

theorem reverse_flushed (a : Arrangement) :
    a.flushed.reverse = a.placed.reverse ++ grouped a.pending.reverse := by
  unfold flushed grouped
  by_cases h : a.pending.isEmpty = true
  · simp [h]
  · simp [h]

/-- Behind a spread, plain props wait for the next spread or the end. -/
theorem result_foldl_behind {a : Arrangement} (hbehind : a.behindSpread = true)
    {attributes : List Markup} (h : ∀ attr ∈ attributes, IsAttribute attr) :
    (attributes.foldl add a).result =
      a.placed.reverse ++ grouped (a.pending.reverse ++ leading attributes) ++ merged attributes ++
        (a.deferred.reverse ++ attributes.filter isMetaProp) := by
  induction attributes generalizing a with
  | nil => simp [result, reverse_flushed, leading, merged]
  | cons attr rest ih =>
      have hrest : ∀ attr ∈ rest, IsAttribute attr := fun attr hattr =>
        h attr (List.mem_cons_of_mem _ hattr)
      rw [List.foldl_cons]
      rcases isAttribute_cases (h attr (by simp)) with ⟨name, value, rfl⟩ | ⟨value, rfl⟩
      · by_cases hmeta : isMeta name = true
        · have hnext := @ih { a with deferred := .prop name value :: a.deferred } hbehind hrest
          rw [add, if_pos hmeta, hnext, leading_meta hmeta, merged_prop,
            List.filter_cons_of_pos (by simpa [isMetaProp] using hmeta)]
          simp
        · have hnext := @ih { a with pending := (name, value) :: a.pending } hbehind hrest
          rw [add, if_neg hmeta, if_pos hbehind, hnext, leading_plain hmeta, merged_prop,
            List.filter_cons_of_neg (by simpa [isMetaProp] using hmeta)]
          simp
      · -- What has waited becomes a group in front of this spread.
        rw [add, ih rfl hrest, leading_spread, merged_spread,
          List.filter_cons_of_neg (by simp [isMetaProp])]
        simp [reverse_flushed]

/-- In front of the first spread, plain props are placed as they come. -/
theorem result_foldl_before {a : Arrangement} (hbehind : a.behindSpread = false)
    (hpending : a.pending = []) {attributes : List Markup}
    (h : ∀ attr ∈ attributes, IsAttribute attr) :
    (attributes.foldl add a).result =
      a.placed.reverse ++ (leading attributes).map (fun prop => .prop prop.1 prop.2) ++
        merged attributes ++ (a.deferred.reverse ++ attributes.filter isMetaProp) := by
  induction attributes generalizing a with
  | nil => simp [result, reverse_flushed, leading, merged, hpending, grouped]
  | cons attr rest ih =>
      have hrest : ∀ attr ∈ rest, IsAttribute attr := fun attr hattr =>
        h attr (List.mem_cons_of_mem _ hattr)
      rw [List.foldl_cons]
      rcases isAttribute_cases (h attr (by simp)) with ⟨name, value, rfl⟩ | ⟨value, rfl⟩
      · by_cases hmeta : isMeta name = true
        · have hnext := @ih { a with deferred := .prop name value :: a.deferred } hbehind hpending
            hrest
          rw [add, if_pos hmeta, hnext, leading_meta hmeta, merged_prop,
            List.filter_cons_of_pos (by simpa [isMetaProp] using hmeta)]
          simp
        · have hnext := @ih { a with placed := .prop name value :: a.placed } hbehind hpending hrest
          rw [add, if_neg hmeta, if_neg (by simp [hbehind]), hnext, leading_plain hmeta,
            merged_prop, List.filter_cons_of_neg (by simpa [isMetaProp] using hmeta)]
          simp
      · -- From here on plain props wait.
        rw [add, result_foldl_behind rfl hrest, leading_spread, merged_spread,
          List.filter_cons_of_neg (by simp [isMetaProp])]
        simp [reverse_flushed, hpending, grouped]

end Arrangement

theorem arranged_eq {attributes : List Markup} (h : ∀ attr ∈ attributes, IsAttribute attr) :
    arranged attributes = (leading attributes).map (fun prop => .prop prop.1 prop.2) ++
      merged attributes ++ attributes.filter isMetaProp := by
  have hresult := @Arrangement.result_foldl_before {} rfl rfl attributes h
  simpa [arranged, Arrangement.result] using hresult

/-! ## Attributes that are read -/

theorem isAttribute_of_wellFormed {attr : Markup} (h : WellFormedAttribute attr) :
    IsAttribute attr := by
  rcases wellFormedAttribute_cases h with ⟨name, value, rfl⟩ | ⟨code, rfl, -⟩
  · trivial
  · trivial

/-- The name of a prop does not matter to its value. -/
theorem wellFormedAttribute_rename {name other : String} {value : Markup}
    (h : WellFormedAttribute (.prop name value)) (hother : IsName other.toList) :
    WellFormedAttribute (.prop other value) := by
  rcases wellFormedProp_cases h with ⟨-, rfl | ⟨content, rfl⟩ | ⟨code, rfl, hcode⟩⟩
  · exact ⟨hother, rfl⟩
  · exact hother
  · exact ⟨hother, hcode⟩

theorem isName_shorthand {name word : String} (hname : IsName name.toList)
    (hword : shorthand? name = some word) (number : Nat) :
    IsName (name ++ "." ++ word ++ "_" ++ toString number).toList := by
  -- The word is one of two, and both are names.
  have hfixed : IsName word.toList := by
    unfold shorthand? at hword
    by_cases hif : lastSegment name == "@if"
    · rw [if_pos hif, Option.some.injEq] at hword
      rw [← hword]
      decide
    · rw [if_neg hif] at hword
      by_cases hprocess : lastSegment name == "@process"
      · rw [if_pos hprocess, Option.some.injEq] at hword
        rw [← hword]
        decide
      · rw [if_neg hprocess] at hword
        simp at hword
  simp only [String.toList_append]
  exact isName_append (isName_append (isName_append (isName_append hname (by decide)) hfixed)
    (by decide)) (isName_toString number)

theorem wellFormedAttribute_expandedFrom {seen : List String} {attributes : List Markup}
    (h : ∀ attr ∈ attributes, WellFormedAttribute attr) :
    ∀ attr ∈ expandedFrom seen attributes, WellFormedAttribute attr := by
  fun_induction expandedFrom seen attributes with
  | case1 => simp
  | case2 seen name value rest full ih =>
      intro attr hattr
      rcases List.mem_cons.mp hattr with rfl | hattr
      · have hprop := h (.prop name value) (by simp)
        have hname := (wellFormedProp_cases hprop).1
        -- Only the name is made longer, if it is a shorthand.
        refine wellFormedAttribute_rename hprop ?_
        cases hword : shorthand? name with
        | none => simpa [full, hword] using hname
        | some word =>
            have hfull := isName_shorthand hname hword (seen.count name + 1)
            simpa [full, hword] using hfull
      · exact ih (fun attr hmem => h attr (List.mem_cons_of_mem _ hmem)) attr hattr
  | case3 seen other rest hother ih =>
      intro attr hattr
      rcases List.mem_cons.mp hattr with rfl | hattr
      · exact h attr (by simp)
      · exact ih (fun attr hmem => h attr (List.mem_cons_of_mem _ hmem)) attr hattr

/-- The attributes of a tag that are rendered, before they are arranged. -/
def renderedAttributes (attributes : List Markup) : List Markup :=
  expanded (attributes.filter isRendered)

theorem wellFormedAttribute_rendered {attributes : List Markup}
    (h : ∀ attr ∈ attributes, WellFormedAttribute attr) :
    ∀ attr ∈ renderedAttributes attributes, WellFormedAttribute attr :=
  wellFormedAttribute_expandedFrom fun attr hattr => h attr (List.mem_filter.mp hattr).1

/-- What is prepared, by the attributes alone. -/
theorem prepared_eq_ok {attributes rendered : List Markup} {property : Option String}
    (h : prepared attributes = .ok (rendered, property)) :
    rendered = arranged (renderedAttributes attributes) ∧
      property = directive? childrenDirective attributes := by
  rcases map_eq_ok h with ⟨⟨kept, found⟩, hkept, hpair⟩
  rw [Prod.mk.injEq] at hpair
  rcases withoutDirectivesFrom_eq_ok hkept with ⟨rfl, hfound⟩
  refine ⟨hpair.1.symm, ?_⟩
  rw [← hpair.2, hfound, directive?]
  cases lastProp? childrenDirective attributes <;> rfl

end Fusion

end Afx
