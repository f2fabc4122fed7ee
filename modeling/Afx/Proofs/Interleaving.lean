import Afx.Proofs.Attributes
import Mathlib.Data.List.Basic

/-!
# Meta Props Among Other Attributes

Directives and meta paths may be written anywhere among the attributes of a tag.
They are prepared by three walks, and each of them sees props and meta props
together: one carries the text of the last directive for the children, one the
names it has met, and one the props that wait behind a spread. Still it does not
matter where the meta props stand. Every walk keeps its accounts of meta props
and of all else apart, so what it does to a list is known from the meta props
alone and from the others alone.

For each walk this is one equation about filtered lists. The names that are
numbered need the most care, since `foo.@if` is a shorthand but no meta path: a
name counts only with its like, and a number never turns one kind of name into
the other. Filtered lists are also all that is needed to know an interleaving of
two kinds.

## Main definitions

* `Interleaved`: A list made of two others, each of which keeps its order.
* `numberedName`: The name that a prop gets behind others of the same name.

## Theorems

* `Interleaved.filter_left`, `Interleaved.filter_right`: Each kind can be filtered out again.
* `withoutDirectivesFrom_filter`: Directives are found among any attributes that have them all.
* `filter_expandedFrom`: Names of a kind are numbered by themselves.
* `arranged_filter`: Meta props come behind all others.
* `prepared_filter`: Meta props and others are prepared apart.
* `prepared_interleaved`: Where meta props stand does not matter.
-/

namespace Afx

/-! ## Interleaving -/

/-- A list made of two others, each of which keeps its order. -/
inductive Interleaved {α : Type} : List α → List α → List α → Prop where
  | nil : Interleaved [] [] []
  | left {one : α} {first second all : List α} (h : Interleaved first second all) :
      Interleaved (one :: first) second (one :: all)
  | right {one : α} {first second all : List α} (h : Interleaved first second all) :
      Interleaved first (one :: second) (one :: all)

namespace Interleaved

variable {α : Type} {first second all : List α}

theorem symm (h : Interleaved first second all) : Interleaved second first all := by
  induction h with
  | nil => exact .nil
  | left _ ih => exact .right ih
  | right _ ih => exact .left ih

theorem append (first second : List α) : Interleaved first second (first ++ second) := by
  induction first with
  | nil =>
      induction second with
      | nil => exact .nil
      | cons one rest ih => exact .right ih
  | cons one rest ih => exact .left ih

/-- Of two kinds that are interleaved, the first can be filtered out again. -/
theorem filter_left (h : Interleaved first second all) {kind : α → Bool}
    (hfirst : ∀ one ∈ first, kind one = true) (hsecond : ∀ one ∈ second, kind one = false) :
    all.filter kind = first := by
  induction h with
  | nil => rfl
  | left _ ih =>
      rw [List.forall_mem_cons] at hfirst
      rw [List.filter_cons_of_pos hfirst.1, ih hfirst.2 hsecond]
  | right _ ih =>
      rw [List.forall_mem_cons] at hsecond
      rw [List.filter_cons_of_neg (by simp [hsecond.1]), ih hfirst hsecond.2]

theorem filter_right (h : Interleaved first second all) {kind : α → Bool}
    (hfirst : ∀ one ∈ first, kind one = true) (hsecond : ∀ one ∈ second, kind one = false) :
    all.filter (fun one => !kind one) = second :=
  h.symm.filter_left (by simpa using hsecond) (by simpa using hfirst)

end Interleaved

namespace Fusion

open Markup

/-! ## Directives -/

theorem isMeta_of_isDirective {name : String} (h : isDirective name = true) :
    isMeta name = true := by
  simp only [isDirective, isParentDirective, childrenDirective, Bool.or_eq_true, beq_iff_eq] at h
  rcases h with (rfl | rfl) | rfl
  · rfl
  · rfl
  · rfl

theorem isMetaProp_of_not_rendered {attr : Markup} (h : isRendered attr = false) :
    isMetaProp attr = true := by
  cases attr with
  | prop name value => exact isMeta_of_isDirective (by simpa [isRendered] using h)
  | _ => simp [isRendered] at h

theorem withoutDirectivesFrom_rendered {attr : Markup} (h : isRendered attr = true)
    (children : Option String) (rest : List Markup) :
    withoutDirectivesFrom children (attr :: rest) =
      (withoutDirectivesFrom children rest).map fun (kept, found) => (attr :: kept, found) := by
  cases attr with
  | prop name value =>
      have hnone : isParentDirective name ≠ true ∧ (name == childrenDirective) ≠ true := by
        simpa [isRendered, isDirective] using h
      rw [withoutDirectivesFrom, if_neg hnone.1, if_neg hnone.2]
  | _ => rfl

/-- Directives are found among the attributes of any kind that has them all, and all that is
    rendered stays. -/
theorem withoutDirectivesFrom_filter {kind : Markup → Bool}
    (hkind : ∀ attr, isRendered attr = false → kind attr = true) (children : Option String)
    (attributes : List Markup) :
    withoutDirectivesFrom children attributes =
      (withoutDirectivesFrom children (attributes.filter kind)).map fun found =>
        (attributes.filter isRendered, found.2) := by
  induction attributes generalizing children with
  | nil => rfl
  | cons attr rest ih =>
      by_cases hrendered : isRendered attr = true
      · -- An attribute that stays is put in front of what the rest of the walk keeps.
        rw [withoutDirectivesFrom_rendered hrendered, ih, List.filter_cons_of_pos hrendered]
        by_cases hattr : kind attr = true
        · rw [List.filter_cons_of_pos hattr, withoutDirectivesFrom_rendered hrendered]
          cases withoutDirectivesFrom children (rest.filter kind) <;> rfl
        · rw [List.filter_cons_of_neg hattr]
          cases withoutDirectivesFrom children (rest.filter kind) <;> rfl
      · -- Both walks look at the directive, and neither keeps it.
        rw [List.filter_cons_of_pos (hkind attr (by simpa using hrendered)),
          List.filter_cons_of_neg hrendered]
        cases attr with
        | prop name value =>
            rw [withoutDirectivesFrom, withoutDirectivesFrom]
            by_cases hparent : isParentDirective name = true
            · rw [if_pos hparent, if_pos hparent]
              cases payload name value with
              | error fault => rfl
              | ok text => exact ih children
            · have hchildren : (name == childrenDirective) = true := by
                simpa [isRendered, isDirective, hparent] using hrendered
              rw [if_neg hparent, if_neg hparent, if_pos hchildren, if_pos hchildren]
              cases payload name value with
              | error fault => rfl
              | ok text => exact ih (some text)
        | _ => exact absurd rfl hrendered

/-! ## Numbered names -/

/-- The name that a prop gets behind so many others of the same name. -/
def numberedName (before : Nat) (name : String) : String :=
  match shorthand? name with
  | some word => name ++ "." ++ word ++ "_" ++ toString (before + 1)
  | none => name

theorem expandedFrom_prop (seen : List String) (name : String) (value : Markup)
    (rest : List Markup) :
    expandedFrom seen (.prop name value :: rest) =
      .prop (numberedName (seen.count name) name) value :: expandedFrom (name :: seen) rest :=
  rfl

/-- Names of a kind are numbered by themselves, if numbers keep the kind. -/
theorem filter_expandedFrom {kind : Markup → Bool} {kindName : String → Bool}
    (hkind : ∀ name value, kind (.prop name value) = kindName name)
    (hname : ∀ before name, kindName (numberedName before name) = kindName name)
    (seen : List String) (attributes : List Markup) :
    (expandedFrom seen attributes).filter kind =
      expandedFrom (seen.filter kindName) (attributes.filter kind) := by
  induction attributes generalizing seen with
  | nil => rfl
  | cons attr rest ih =>
      have hother : (∀ seen others, expandedFrom seen (attr :: others) =
            attr :: expandedFrom seen others) →
          (expandedFrom seen (attr :: rest)).filter kind =
            expandedFrom (seen.filter kindName) ((attr :: rest).filter kind) := by
        intro hstep
        rw [hstep, List.filter_cons, List.filter_cons, ih]
        by_cases hattr : kind attr = true
        · rw [if_pos hattr, if_pos hattr, hstep]
        · rw [if_neg hattr, if_neg hattr]
      cases attr with
      | prop name value =>
          rw [expandedFrom_prop]
          by_cases hkept : kindName name = true
          · -- All props before it with this name are of its kind.
            rw [List.filter_cons_of_pos (by rw [hkind, hname, hkept]),
              List.filter_cons_of_pos (by rw [hkind, hkept]), expandedFrom_prop, ih,
              List.filter_cons_of_pos hkept, List.count_filter hkept]
          · rw [List.filter_cons_of_neg (by rw [hkind, hname]; exact hkept),
              List.filter_cons_of_neg (by rw [hkind]; exact hkept), ih,
              List.filter_cons_of_neg hkept]
      | _ => exact hother fun _ _ => rfl

theorem isMeta_numberedName (before : Nat) (name : String) :
    isMeta (numberedName before name) = isMeta name := by
  unfold numberedName
  cases hword : shorthand? name with
  | none => rfl
  | some word =>
      -- A name that ends in a shorthand has a first character, which stays the first.
      have hne : name.toList ≠ [] := by
        intro hnil
        have hempty : name = "" := String.toList_inj.mp hnil
        have hnone : shorthand? "" = none := by decide
        rw [hempty, hnone] at hword
        exact absurd hword (by simp)
      simp only [isMeta, String.toList_append, List.append_assoc]
      rw [List.head?_append_of_ne_nil _ hne]

theorem filter_meta_expanded (attributes : List Markup) :
    (expanded attributes).filter isMetaProp = expanded (attributes.filter isMetaProp) :=
  filter_expandedFrom (fun _ _ => rfl) isMeta_numberedName [] attributes

theorem filter_other_expanded (attributes : List Markup) :
    (expanded attributes).filter (fun attr => !isMetaProp attr) =
      expanded (attributes.filter fun attr => !isMetaProp attr) :=
  @filter_expandedFrom _ (fun name => !isMeta name) (fun _ _ => rfl)
    (fun before name => congrArg not (isMeta_numberedName before name)) [] attributes

/-! ## The order of attributes -/

theorem meta_of_mem_filter (attributes : List Markup) :
    ∀ attr ∈ attributes.filter isMetaProp, isMetaProp attr = true :=
  fun _ hattr => (List.mem_filter.mp hattr).2

theorem other_of_mem_filter (attributes : List Markup) :
    ∀ attr ∈ attributes.filter (fun attr => !isMetaProp attr), isMetaProp attr = false := by
  intro attr hattr
  simpa using (List.mem_filter.mp hattr).2

namespace Arrangement

/-- The same arrangement with other meta props. -/
def deferring (a : Arrangement) (props : List Markup) : Arrangement :=
  { a with deferred := props }

theorem add_meta (a : Arrangement) {attr : Markup} (h : isMetaProp attr = true) :
    a.add attr = a.deferring (attr :: a.deferred) := by
  cases attr with
  | prop name value =>
      rw [add, if_pos (by simpa [isMetaProp] using h)]
      rfl
  | _ => simp [isMetaProp] at h

/-- Meta props are of no account to any other attribute. -/
theorem add_other (a : Arrangement) (props : List Markup) {attr : Markup}
    (h : isMetaProp attr = false) :
    (a.deferring props).add attr = (a.add attr).deferring props ∧
      (a.add attr).deferred = a.deferred := by
  cases attr with
  | prop name value =>
      have hplain : isMeta name ≠ true := by simpa [isMetaProp] using h
      rw [add, add, if_neg hplain, if_neg hplain]
      by_cases hbehind : a.behindSpread = true
      · simp [deferring, hbehind]
      · simp [deferring, hbehind]
  | _ => exact ⟨rfl, rfl⟩

/-- The meta props of a list are deferred, and the others arranged without them. -/
theorem foldl_add_filter (a : Arrangement) (attributes : List Markup) :
    attributes.foldl add a =
      ((attributes.filter fun attr => !isMetaProp attr).foldl add a).deferring
        ((attributes.filter isMetaProp).reverse ++ a.deferred) := by
  -- What was deferred before may be set aside until the others are arranged.
  have haside : ∀ (a : Arrangement) (props others : List Markup),
      (∀ attr ∈ others, isMetaProp attr = false) →
      others.foldl add (a.deferring props) = (others.foldl add a).deferring props ∧
        (others.foldl add a).deferred = a.deferred := by
    intro a props others hothers
    induction others generalizing a with
    | nil => exact ⟨rfl, rfl⟩
    | cons attr rest ih =>
        rw [List.forall_mem_cons] at hothers
        have hstep := add_other a props hothers.1
        have hrest := ih (a.add attr) hothers.2
        rw [List.foldl_cons, List.foldl_cons, hstep.1]
        exact ⟨hrest.1, hrest.2.trans hstep.2⟩
  induction attributes generalizing a with
  | nil => rfl
  | cons attr rest ih =>
      have hrest := other_of_mem_filter rest
      rw [List.foldl_cons, ih]
      by_cases hmeta : isMetaProp attr = true
      · rw [add_meta a hmeta, List.filter_cons_of_neg (by simp [hmeta]),
          List.filter_cons_of_pos hmeta, (haside a _ _ hrest).1]
        simp [deferring]
      · have hother : isMetaProp attr = false := by simpa using hmeta
        rw [List.filter_cons_of_pos (by simp [hother]), List.filter_cons_of_neg hmeta,
          List.foldl_cons, (add_other a [] hother).2]

end Arrangement

/-- Meta props come behind all others, which are arranged without them. -/
theorem arranged_filter (attributes : List Markup) :
    arranged attributes =
      arranged (attributes.filter fun attr => !isMetaProp attr) ++
        attributes.filter isMetaProp := by
  have hnone : (attributes.filter fun attr => !isMetaProp attr).filter isMetaProp = [] := by
    simp [List.filter_filter]
  have hsame : (attributes.filter fun attr => !isMetaProp attr).filter
      (fun attr => !isMetaProp attr) = attributes.filter fun attr => !isMetaProp attr := by
    simp [List.filter_filter]
  rw [arranged, Arrangement.foldl_add_filter {} attributes, arranged,
    Arrangement.foldl_add_filter {} (attributes.filter _), hnone, hsame]
  simp [Arrangement.deferring, Arrangement.flushed]

theorem arranged_append {others metas : List Markup}
    (hothers : ∀ attr ∈ others, isMetaProp attr = false)
    (hmetas : ∀ attr ∈ metas, isMetaProp attr = true) :
    arranged (others ++ metas) = arranged others ++ metas := by
  have h := (Interleaved.append others metas).symm
  rw [arranged_filter, h.filter_left hmetas hothers, h.filter_right hmetas hothers]

/-! ## All three walks -/

/-- Directives are meta props, so all others are rendered. -/
theorem filter_other_rendered (attributes : List Markup) :
    (attributes.filter isRendered).filter (fun attr => !isMetaProp attr) =
      attributes.filter fun attr => !isMetaProp attr := by
  rw [List.filter_filter]
  refine List.filter_congr fun attr _ => ?_
  cases hrendered : isRendered attr with
  | true => simp
  | false => simp [isMetaProp_of_not_rendered hrendered]

/-- Meta props and others are prepared apart. -/
theorem prepared_filter (attributes : List Markup) :
    prepared attributes =
      (withoutDirectives (attributes.filter isMetaProp)).map fun found =>
        (arranged (expanded (attributes.filter fun attr => !isMetaProp attr)) ++
          expanded ((attributes.filter isMetaProp).filter isRendered), found.2) := by
  have hmeta : (attributes.filter isRendered).filter isMetaProp =
      (attributes.filter isMetaProp).filter isRendered := by
    rw [List.filter_filter, List.filter_filter]
    exact List.filter_congr fun attr _ => Bool.and_comm _ _
  have harranged : arranged (expanded (attributes.filter isRendered)) =
      arranged (expanded (attributes.filter fun attr => !isMetaProp attr)) ++
        expanded ((attributes.filter isMetaProp).filter isRendered) := by
    rw [arranged_filter, filter_other_expanded, filter_meta_expanded, filter_other_rendered, hmeta]
  rw [prepared, withoutDirectives,
    withoutDirectivesFrom_filter fun attr => @isMetaProp_of_not_rendered attr, ← harranged,
    withoutDirectives]
  cases withoutDirectivesFrom none (attributes.filter isMetaProp) <;> rfl

/-- Where meta props stand among the other attributes does not matter: the fault is that of the
    meta props by themselves, and without one the others are prepared first and the meta props
    behind them. The path of the children is the text of the last directive for it, and else
    whatever is the default. -/
theorem prepared_interleaved {props others attributes : List Markup}
    (h : Interleaved props others attributes) (hprops : ∀ attr ∈ props, isMetaProp attr = true)
    (hothers : ∀ attr ∈ others, isMetaProp attr = false) :
    ∃ front, prepared others = .ok (front, none) ∧
      prepared attributes = (prepared props).map (fun found => (front ++ found.1, found.2)) ∧
      ∀ found default, prepared attributes = .ok found →
        found.2.getD default = (directive? childrenDirective props).getD default := by
  have hmeta : attributes.filter isMetaProp = props := h.filter_left hprops hothers
  have hother : attributes.filter (fun attr => !isMetaProp attr) = others :=
    h.filter_right hprops hothers
  have hall : props.filter isMetaProp = props := List.filter_eq_self.mpr hprops
  have hprepared : prepared attributes =
      (prepared props).map fun found => (arranged (expanded others) ++ found.1, found.2) := by
    have hnone : props.filter (fun attr => !isMetaProp attr) = [] := by simpa using hprops
    rw [prepared_filter attributes, prepared_filter props, hmeta, hother, hall, hnone]
    cases withoutDirectives props <;> rfl
  refine ⟨arranged (expanded others), ?_, hprepared, ?_⟩
  · have hnone : others.filter isMetaProp = [] := by simpa using hothers
    have hsame : others.filter (fun attr => !isMetaProp attr) = others :=
      List.filter_eq_self.mpr (by simpa using hothers)
    rw [prepared_filter, hnone, hsame]
    simp [withoutDirectives, withoutDirectivesFrom, Except.map, expanded, expandedFrom]
  · intro found default hfound
    rw [hprepared] at hfound
    rcases map_eq_ok hfound with ⟨found', hfound', rfl⟩
    rw [(prepared_eq_ok hfound').2]

/-- Conditions around a spread and a shorthand that is no meta path. -/
theorem prepared_interleaved_conditions :
    prepared [.prop "@if" (.expression "a"), .prop "x" (.literal "1"),
        .prop "@children" (.literal "items"), .spread (.expression "s"),
        .prop "@if" (.expression "b"), .prop "y.@if" (.flag true)] =
      .ok ([.prop "x" (.literal "1"), .spread (.expression "s"),
        .group [("y.@if.if_1", .flag true)], .prop "@if.if_1" (.expression "a"),
        .prop "@if.if_2" (.expression "b")], some "items") := by
  have hprops : prepared [.prop "@if" (.expression "a"), .prop "@children" (.literal "items"),
      .prop "@if" (.expression "b")] =
      .ok ([.prop "@if.if_1" (.expression "a"), .prop "@if.if_2" (.expression "b")],
        some "items") := by
    rfl
  have hothers : prepared [.prop "x" (.literal "1"), .spread (.expression "s"),
      .prop "y.@if" (.flag true)] =
      .ok ([.prop "x" (.literal "1"), .spread (.expression "s"),
        .group [("y.@if.if_1", .flag true)]], none) := by
    rfl
  rcases prepared_interleaved
    (.left (.right (.left (.right (.left (.right .nil))))) : Interleaved
      [.prop "@if" (.expression "a"), .prop "@children" (.literal "items"),
        .prop "@if" (.expression "b")]
      [.prop "x" (.literal "1"), .spread (.expression "s"), .prop "y.@if" (.flag true)] _)
    (by decide) (by decide) with ⟨front, hfront, hprepared, -⟩
  rw [hothers, Except.ok.injEq, Prod.mk.injEq] at hfront
  rw [hprepared, hprops, ← hfront.1]
  rfl

end Fusion

end Afx
