import Afx.Proofs.Interleaving
import Afx.Proofs.Totality
import Mathlib.Data.Finmap

/-!
# Attributes That Override Each Other

Attributes are meant to be read from left to right: a prop binds a name, a spread
binds many, and what comes later takes the place of what came before. Fusion reads
the fields of an object in another order. Fields with names of their own come
first, wherever they stand, and over them come those that are applied, by their
numbers. So a prop behind a spread would lose against the spread, and that is why
such props are put into groups, which are applied as well.

Here both readings are carried out, for any meaning of values and spreads, and
give the same bindings. In the reading of fields nothing is known but paths and
values: names are what is left of a path without its scope, and a field that
cannot be read at all makes the reading fail. Both readings start from what is
bound already, and the induction is along the attributes as they stand; a spread
is the point where a group of the props behind it is known to be applied next.

## Main definitions

* `Simple`: A prop or spread that can be read from its field.
* `Interpretation`: What the values of props and the expressions of spreads mean.
* `Interpretation.ofAttributes`: Attributes from left to right.
* `Interpretation.ofFields`: Fields in the order in which they are evaluated.

## Theorems

* `collect_of_forall`: Parts that all render are all collected.
* `field_simple`: Simple attributes render, alone and in groups.
* `map_fst_mergedEntries`: Fields that are applied are numbered from one.
* `Interpretation.foldlM_withApplied`: Spreads and groups bind what is behind the first spread.
* `fields_keep_overrides`: The two readings agree.
-/

namespace Afx

namespace Fusion

open Markup

/-! ## Attributes with simple values -/

/-- A value that an attribute can have in a source. -/
def IsLeaf : Markup → Prop
  | .flag _ => True
  | .literal _ => True
  | .expression _ => True
  | _ => False

/-- A prop with such a value, or a spread of an expression. -/
def Simple : Markup → Prop
  | .prop _ value => IsLeaf value
  | .spread (.expression _) => True
  | _ => False

theorem simple_cases {attr : Markup} (h : Simple attr) :
    (∃ name value, attr = .prop name value ∧ IsLeaf value) ∨
      ∃ code, attr = .spread (.expression code) := by
  cases attr with
  | prop name value => exact Or.inl ⟨name, value, rfl, h⟩
  | spread value =>
      cases value with
      | expression code => exact Or.inr ⟨code, rfl⟩
      | _ => exact False.elim h
  | _ => exact False.elim h

theorem isAttribute_of_simple {attr : Markup} (h : Simple attr) : IsAttribute attr := by
  rcases simple_cases h with ⟨name, value, rfl, -⟩ | ⟨code, rfl⟩
  · trivial
  · trivial

theorem simple_expandedFrom {seen : List String} {attributes : List Markup}
    (h : ∀ attr ∈ attributes, Simple attr) :
    ∀ attr ∈ expandedFrom seen attributes, Simple attr := by
  induction attributes generalizing seen with
  | nil => simp [expandedFrom]
  | cons attr rest ih =>
      rw [List.forall_mem_cons] at h
      rcases simple_cases h.1 with ⟨name, value, rfl, hvalue⟩ | ⟨code, rfl⟩
      · rw [expandedFrom_prop, List.forall_mem_cons]
        exact ⟨hvalue, ih h.2⟩
      · exact List.forall_mem_cons.mpr ⟨trivial, ih h.2⟩

theorem simple_rendered {attributes : List Markup} (h : ∀ attr ∈ attributes, Simple attr) :
    ∀ attr ∈ renderedAttributes attributes, Simple attr :=
  simple_expandedFrom fun attr hattr => h attr (List.mem_filter.mp hattr).1

/-! ## Simple attributes render -/

theorem collect_of_forall {α β : Type} {render : α → Except Fault (Option β)}
    {given : α → Option β} {parts : List α} (h : ∀ part ∈ parts, render part = .ok (given part)) :
    collect render parts = .ok (parts.filterMap given) := by
  induction parts with
  | nil => rfl
  | cons part rest ih =>
      rw [List.forall_mem_cons] at h
      rw [collect, h.1, ih h.2]
      cases hpart : given part with
      | none => rw [List.filterMap_cons_none hpart]
      | some entry => rw [List.filterMap_cons_some hpart]; rfl

section Rendering

variable (v : Vocabulary) (n : Nat)

theorem assignment_simple (path : String) {one : Markup} (h : IsLeaf one) :
    assignment v (n + 2) path one = .ok (some (path, leaf one)) := by
  cases one with
  | flag set => rfl
  | literal content => rfl
  | expression code => rfl
  | _ => exact False.elim h

theorem collection_simple {props : List (String × Markup)} (h : ∀ prop ∈ props, IsLeaf prop.2) :
    collection v (n + 3) props = .ok (.object v.dataStructure (propEntries id props)) := by
  have hprops : collect (fun prop => assignment v (n + 2) prop.1 prop.2) props =
      .ok (props.filterMap fun prop => some (prop.1, leaf prop.2)) :=
    collect_of_forall fun prop hprop => assignment_simple v n prop.1 (h prop hprop)
  rw [collection, hprops, propEntries, ← List.filterMap_eq_map]
  rfl

theorem field_simple (within : String) (number : Nat) {attr : Markup}
    (h : Simple attr ∨
      ∃ props, attr = .group props ∧ ∀ prop ∈ props, Simple (.prop prop.1 prop.2)) :
    field v (n + 4) within number attr = .ok (fieldEntry v within number attr) := by
  rcases h with h | ⟨props, rfl, hprops⟩
  · rcases simple_cases h with ⟨name, value, rfl, hvalue⟩ | ⟨code, rfl⟩
    · exact assignment_simple v (n + 1) _ hvalue
    · rfl
  · rw [field, collection_simple v n hprops]
    rfl

end Rendering

theorem prepared_of_textual {attributes : List Markup}
    (h : ∀ attr ∈ attributes, isTextual attr = true) :
    prepared attributes =
      .ok (arranged (renderedAttributes attributes), directive? childrenDirective attributes) := by
  have hnone : ¬ Refused attributes := not_refused_of_textual (List.all_eq_true.mpr h)
  cases hfound : prepared attributes with
  | ok found => rw [← (prepared_eq_ok hfound).1, ← (prepared_eq_ok hfound).2]
  | error fault =>
      rcases (accounted_prepared attributes False).error hfound with ⟨-, hshort⟩ | ⟨-, hrefused⟩
      · exact False.elim hshort
      · exact absurd hrefused hnone

/-- The fields of a tag with simple attributes. -/
theorem fields_simple (v : Vocabulary) (n : Nat) (name : String) {attributes : List Markup}
    (h : ∀ attr ∈ attributes, Simple attr) :
    collect (fun (number, attr) => field v (n + 4) (scope name) number attr)
      (numbered 1 (arranged (renderedAttributes attributes))) =
      .ok (attributeEntries v name attributes) := by
  have hrendered := simple_rendered h
  have hattributes : ∀ attr ∈ renderedAttributes attributes, IsAttribute attr :=
    fun attr hattr => isAttribute_of_simple (hrendered attr hattr)
  have hfield : ∀ part ∈ numbered 1 (arranged (renderedAttributes attributes)),
      field v (n + 4) (scope name) part.1 part.2 =
        .ok (fieldEntry v (scope name) part.1 part.2) := by
    intro part hpart
    exact field_simple v n (scope name) part.1
      (kept_arranged hattributes hrendered part.2 (mem_numbered hpart))
  rw [← fieldEntries_arranged v name hattributes]
  exact collect_of_forall hfield

/-! ## Two readings -/

/-- Names with what is bound to them. -/
abbrev Bindings (V : Type) : Type :=
  Finmap fun _ : String => V

/-- What the values of props and the expressions of spreads mean. -/
structure Interpretation (V : Type) where
  value : Markup → V
  spread : String → Bindings V

/-- The value of a prop that is rendered as this. -/
def propValue? : Value → Option Markup
  | .text content => some (.literal content)
  | .expression code => some (.expression code)
  | .boolean set => some (.flag set)
  | .object .. => none

namespace Interpretation

variable {V : Type} (I : Interpretation V)

/-- An attribute binds its names over what was bound before. -/
def withAttribute (bound : Bindings V) : Markup → Bindings V
  | .prop name value => bound.insert name (I.value value)
  | .spread (.expression code) => I.spread code ∪ bound
  | _ => bound

/-- Attributes from left to right. -/
def ofAttributes (attributes : List Markup) : Bindings V :=
  attributes.foldl I.withAttribute ∅

/-- A field binds what is left of its path without the scope. -/
def withField (within : String) (bound : Bindings V) (field : String × Value) :
    Option (Bindings V) := do
  let name ← within.toList.isPrefixOf? field.1.toList
  let value ← propValue? field.2
  return bound.insert (String.ofList name) (I.value value)

/-- A value that is applied binds all that a spread means, or the fields of an object of the
    given prototype. -/
def withApplied (prototype : String) (bound : Bindings V) : Value → Option (Bindings V)
  | .expression code => some (I.spread code ∪ bound)
  | .object name fields =>
    if name = prototype then (fields.foldlM (I.withField "") ∅).map (· ∪ bound) else none
  | _ => none

/-- Fields in the order in which they are evaluated: those with names of their own, and then
    those that are applied. -/
def ofFields (prototype within : String) (direct merging : List (String × Value)) :
    Option (Bindings V) := do
  let bound ← direct.foldlM (I.withField within) ∅
  (merging.map Prod.snd).foldlM (I.withApplied prototype) bound

/-- Props bind their names one after another. -/
def withProps (bound : Bindings V) (entries : List (String × Markup)) : Bindings V :=
  entries.foldl (fun bound prop => bound.insert prop.1 (I.value prop.2)) bound

theorem withProps_union (bound : Bindings V) (entries : List (String × Markup)) :
    I.withProps ∅ entries ∪ bound = I.withProps bound entries := by
  have hunion : ∀ first : Bindings V,
      I.withProps first entries ∪ bound = I.withProps (first ∪ bound) entries := by
    intro first
    induction entries generalizing first with
    | nil => rfl
    | cons prop rest ih =>
        have hstep := ih (first.insert prop.1 (I.value prop.2))
        rw [← Finmap.insert_union] at hstep
        exact hstep
  rw [hunion, Finmap.empty_union]

theorem foldlM_withField (within : String) (bound : Bindings V) {entries : List (String × Markup)}
    (h : ∀ prop ∈ entries, IsLeaf prop.2) :
    (propEntries (within ++ ·) entries).foldlM (I.withField within) bound =
      some (I.withProps bound entries) := by
  induction entries generalizing bound with
  | nil => rfl
  | cons prop rest ih =>
      rw [List.forall_mem_cons] at h
      have hname : within.toList.isPrefixOf? (within ++ prop.1).toList = some prop.1.toList := by
        rw [List.isPrefixOf?_eq_some_iff_append_eq, String.toList_append]
      have hvalue : propValue? (leaf prop.2) = some prop.2 := by
        cases hleaf : prop.2 with
        | flag set => rfl
        | literal content => rfl
        | expression code => rfl
        | _ => exact False.elim (by rw [hleaf] at h; exact h.1)
      have hstep : I.withField within bound (within ++ prop.1, leaf prop.2) =
          some (bound.insert prop.1 (I.value prop.2)) := by
        rw [withField, hname, hvalue]
        simp
      rw [propEntries, List.map_cons, List.foldlM_cons, hstep]
      exact ih _ h.2

/-- Spreads and groups bind all that is behind the first spread, if the props in front of it are
    bound already. -/
theorem foldlM_withApplied (v : Vocabulary) (within : String) (next : Nat) (bound : Bindings V)
    {attributes : List Markup} (h : ∀ attr ∈ attributes, Simple attr) :
    ((mergedEntries v within next attributes).map Prod.snd).foldlM (I.withApplied v.dataStructure)
        (I.withProps bound (leading attributes)) =
      some ((attributes.filter fun attr => !isMetaProp attr).foldl I.withAttribute bound) := by
  induction attributes generalizing next bound with
  | nil => rfl
  | cons attr rest ih =>
      rw [List.forall_mem_cons] at h
      rcases simple_cases h.1 with ⟨name, value, rfl, -⟩ | ⟨code, rfl⟩
      · by_cases hmeta : isMeta name = true
        · rw [leading_meta hmeta, List.filter_cons_of_neg (by simp [isMetaProp, hmeta])]
          exact ih next bound h.2
        · rw [leading_plain hmeta, List.filter_cons_of_pos (by simp [isMetaProp, hmeta])]
          exact ih next (bound.insert name (I.value value)) h.2
      · rw [leading_spread, List.filter_cons_of_pos rfl, List.foldl_cons, mergedEntries]
        by_cases hnone : (leading rest).isEmpty = true
        · have hrest := ih (next + 1) (I.spread code ∪ bound) h.2
          rw [List.isEmpty_iff.mp hnone] at hrest
          rw [if_pos hnone]
          exact hrest
        · -- The group behind the spread binds what the props in it bind one after another.
          have hprops : ∀ prop ∈ leading rest, IsLeaf prop.2 :=
            fun prop hprop => h.2 _ (mem_leading hprop)
          have hfields := I.foldlM_withField "" ∅ hprops
          have hempty : (fun name : String => "" ++ name) = id :=
            funext fun _ => String.empty_append
          rw [hempty] at hfields
          have hgroup : I.withApplied v.dataStructure (I.spread code ∪ bound)
              (.object v.dataStructure (propEntries id (leading rest))) =
              some (I.withProps (I.spread code ∪ bound) (leading rest)) := by
            rw [withApplied, if_pos rfl, hfields, Option.map_some, withProps_union]
          rw [if_neg hnone, List.map_cons, List.map_cons, List.foldlM_cons]
          change (List.foldlM (I.withApplied v.dataStructure) (I.spread code ∪ bound) (_ :: _)) = _
          rw [List.foldlM_cons, hgroup]
          exact ih (next + 2) (I.spread code ∪ bound) h.2

end Interpretation

/-! ## Fields and attributes -/

theorem map_fst_mergedEntries (v : Vocabulary) (within : String) (next : Nat)
    (attributes : List Markup) :
    (mergedEntries v within next attributes).map Prod.fst =
      (List.range' next (mergedEntries v within next attributes).length).map
        fun number => within ++ "@apply.spread_" ++ toString number := by
  induction attributes generalizing next with
  | nil => rfl
  | cons attr rest ih =>
      cases attr with
      | spread value =>
          rw [mergedEntries]
          by_cases hnone : (leading rest).isEmpty = true
          · rw [if_pos hnone, List.map_cons, List.length_cons, List.range'_succ, List.map_cons, ih]
          · rw [if_neg hnone, List.map_cons, List.map_cons, List.length_cons, List.length_cons,
              List.range'_succ, List.range'_succ, List.map_cons, List.map_cons, ih]
      | _ => exact ih next

/-- Fields mean what the attributes mean that they come from. Whatever children a tag has, the
    attributes render, as fields with names of their own, fields that are applied and are
    numbered from one, and meta fields. Evaluated in this order, the fields that are no meta
    fields bind what the attributes bind from left to right, and this is so for tags, whose
    fields are in a place of their own, and for prototypes. -/
theorem fields_keep_overrides (v : Vocabulary) (name : String) {attributes : List Markup}
    (hattributes : ∀ attr ∈ attributes, Simple attr)
    (hdirectives : ∀ attr ∈ attributes, isTextual attr = true) :
    let within := if isPrototype name then "" else "attributes."
    ∃ direct merging : List (String × Value),
      (∀ n selfClosing children,
        value v (n + 5) (.element name selfClosing attributes children) = do
          let paths ← renderedPlaced v (n + 4) children
          let body ← renderedContent v (n + 4) (directive? childrenDirective attributes) children
          return some (.object (v.prototype name) (introduction name selfClosing ++
            (direct ++ merging ++ (renderedAttributes attributes).filterMap metaField?) ++
            paths ++ body))) ∧
      (∀ field ∈ direct, ∃ prop, isMeta prop = false ∧ field.1 = within ++ prop) ∧
      merging.map Prod.fst = (List.range' 1 merging.length).map
        (fun number => within ++ "@apply.spread_" ++ toString number) ∧
      ∀ (V : Type) (I : Interpretation V),
        I.ofFields v.dataStructure within direct merging =
          some (I.ofAttributes ((expanded attributes).filter fun attr => !isMetaProp attr)) := by
  intro within
  have hrendered := simple_rendered hattributes
  refine ⟨propEntries (within ++ ·) (leading (renderedAttributes attributes)),
    mergedEntries v within 1 (renderedAttributes attributes), ?_, ?_,
    map_fst_mergedEntries _ _ _ _, ?_⟩
  · intro n selfClosing children
    rw [value_element, prepared_of_textual hdirectives]
    change (collect _ (numbered 1 (arranged (renderedAttributes attributes))) >>= _) = _
    rw [fields_simple v n name hattributes]
    rfl
  · intro field hfield
    rcases List.mem_map.mp hfield with ⟨prop, hprop, rfl⟩
    exact ⟨prop.1, isMeta_of_mem_leading hprop, rfl⟩
  · intro V I
    have hdirect := I.foldlM_withField within ∅ fun prop hprop =>
      (hrendered _ (mem_leading hprop) : IsLeaf prop.2)
    rw [Interpretation.ofFields, hdirect]
    refine (I.foldlM_withApplied v within 1 ∅ hrendered).trans ?_
    -- Directives are meta props, so the others are the same with and without them.
    rw [renderedAttributes, filter_other_expanded, filter_other_rendered, ← filter_other_expanded]
    rfl

/-- A prop in front of a spread and again behind it, a condition, and another spread. -/
theorem fields_keep_overrides_between :
    let attributes : List Markup :=
      [.prop "x" (.literal "1"), .spread (.expression "s"), .prop "@if" (.expression "c"),
        .prop "x" (.literal "2"), .spread (.expression "t")]
    let direct : List (String × Value) := [("attributes.x", .text "1")]
    let merging : List (String × Value) :=
      [("attributes.@apply.spread_1", .expression "s"),
        ("attributes.@apply.spread_2", .object "Neos.Fusion:DataStructure" [("x", .text "2")]),
        ("attributes.@apply.spread_3", .expression "t")]
    value defaultVocabulary 5 (.element "a" false attributes []) =
      .ok (some (.object "Neos.Fusion:Tag" (("tagName", .text "a") ::
        (direct ++ merging ++ [("@if.if_1", .expression "c")])))) ∧
    ∀ I : Interpretation Markup,
      I.ofFields "Neos.Fusion:DataStructure" "attributes." direct merging =
        some (I.ofAttributes [.prop "x" (.literal "1"), .spread (.expression "s"),
          .prop "x" (.literal "2"), .spread (.expression "t")]) := by
  intro attributes direct merging
  have hvalue : value defaultVocabulary 5 (.element "a" false attributes []) =
      .ok (some (.object "Neos.Fusion:Tag" (("tagName", .text "a") ::
        (direct ++ merging ++ [("@if.if_1", .expression "c")])))) := by
    rfl
  refine ⟨hvalue, ?_⟩
  rcases @fields_keep_overrides defaultVocabulary "a" attributes
    (by simp [attributes, Simple, IsLeaf]) (by decide) with
    ⟨found, applied, hfields, hfound, happlied, hmeaning⟩
  have hparts : direct ++ merging = found ++ applied := by
    have hmeta : (renderedAttributes attributes).filterMap metaField? =
        [("@if.if_1", .expression "c")] := by
      rfl
    have hsame := hvalue.symm.trans (hfields 0 false [])
    rw [hmeta, renderedPlaced_nil, renderedContent_nil] at hsame
    have hall : direct ++ merging ++ [("@if.if_1", .expression "c")] =
        found ++ applied ++ [("@if.if_1", .expression "c")] := by
      simpa [introduction, defaultVocabulary, Vocabulary.prototype, isPrototype, bind, Except.bind,
        pure, Except.pure] using hsame
    exact List.append_cancel_right hall
  -- Only the first of the fields has a name of its own.
  rcases found with _ | ⟨one, _ | ⟨two, rest⟩⟩
  · rw [List.nil_append] at hparts
    rw [← hparts] at happlied
    exact absurd happlied (by decide)
  · rw [List.singleton_append, List.singleton_append, List.cons.injEq] at hparts
    rw [← hparts.1, ← hparts.2] at hmeaning
    exact hmeaning Markup
  · rcases hfound two (by simp) with ⟨prop, hprop, hname⟩
    rw [List.singleton_append, List.cons_append, List.cons_append, List.cons.injEq,
      List.cons.injEq] at hparts
    rw [← hparts.2.1] at hname
    have happly : "@apply.spread_1" = prop := (String.append_right_inj "attributes.").mp hname
    rw [← happly] at hprop
    exact absurd hprop (by decide)

end Fusion

end Afx
