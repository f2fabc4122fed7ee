import Afx.Proofs.Fields
import Afx.Proofs.Interleaving
import Mathlib.Data.List.Chain

/-!
# Groups Behind Spreads

Arranging moves attributes about, and its walk holds them in three places until
they come out. What it may do to them can be said without the walk. Taking the
groups apart gives back the attributes, the meta props last; a group stands right
behind a spread and holds all plain props up to what comes next; and no plain
prop is left alone behind a spread. There is one list of which all this is true,
so nothing else is to be known about the order of attributes that are read.

Lists built by hand may hold groups and foreign data from the start. These stay
where they are, and a group among them may stand anywhere, so the conditions on
groups fail. Two things hold for every list: nothing is lost or doubled, and a
list that is arranged stays as it is. The first is known step by step along the
walk. For the second, the walk keeps to lists without a plain prop behind a
spread, and on such a list it has nothing to do.

## Main definitions

* `flattened`: The attributes with their groups taken apart.
* `MayFollow`: What may stand next to what.
* `PlainGroups`: What a group may hold.
* `IsArrangement`: What is asked of the order of attributes.
* `Arrangement.Settled`: What the walk keeps to.

## Theorems

* `isArrangement_arranged`: Arranging does what is asked.
* `arranged_flattened`: A list that is in order is what arranging makes of its attributes.
* `Arrangement.flattened_add`: One step loses and doubles nothing.
* `Arrangement.foldl_add_settled`: A list without a plain prop behind a spread stays as it is.
* `arranged_characterized`: What is asked of an order has one answer.
-/

namespace Afx

namespace Fusion

open Markup

/-! ## What is asked of an order -/

/-- The attributes that one stands for: the props of a group, and else itself. -/
def ungrouped : Markup → List Markup
  | .group props => props.map fun prop => .prop prop.1 prop.2
  | other => [other]

/-- The attributes with their groups taken apart. -/
def flattened (attributes : List Markup) : List Markup :=
  attributes.flatMap ungrouped

/-- A spread. -/
def isSpread : Markup → Bool
  | .spread _ => true
  | _ => false

/-- A group of props. -/
def isGroup : Markup → Bool
  | .group _ => true
  | _ => false

/-- A prop that is no meta prop. -/
def isPlainProp : Markup → Bool
  | .prop name _ => !isMeta name
  | _ => false

/-- A group stands right behind a spread, and before a spread or a meta prop. -/
def MayFollow (attr next : Markup) : Prop :=
  (isGroup next = true → isSpread attr = true) ∧
    (isGroup attr = true → isSpread next = true ∨ isMetaProp next = true)

/-- Every group has props, and none of them is a meta prop. -/
def PlainGroups (attributes : List Markup) : Prop :=
  ∀ props, .group props ∈ attributes → props ≠ [] ∧ ∀ prop ∈ props, isMeta prop.1 = false

/-- What is asked of the order in which attributes are rendered. -/
structure IsArrangement (attributes result : List Markup) : Prop where
  /-- Nothing is lost or doubled, and only meta props change their place, to the end. -/
  flat : flattened result =
    attributes.filter (fun attr => !isMetaProp attr) ++ attributes.filter isMetaProp
  group : PlainGroups result
  /-- A group does not come first. -/
  head : ∀ attr ∈ result.head?, isGroup attr = false
  /-- Next to a group stands what may. -/
  adjacent : result.IsChain MayFollow
  /-- No plain prop stands alone behind a spread. -/
  behind : result.Pairwise fun attr later => isSpread attr = true → isPlainProp later = false

theorem PlainGroups.tail {attr : Markup} {rest : List Markup} (h : PlainGroups (attr :: rest)) :
    PlainGroups rest :=
  fun props hprops => h props (List.mem_cons_of_mem _ hprops)

theorem flattened_cons (attr : Markup) (rest : List Markup) :
    flattened (attr :: rest) = ungrouped attr ++ flattened rest :=
  rfl

theorem flattened_append (front back : List Markup) :
    flattened (front ++ back) = flattened front ++ flattened back :=
  List.flatMap_append

theorem ungrouped_of_not_group {attr : Markup} (h : isGroup attr = false) :
    ungrouped attr = [attr] := by
  cases attr with
  | group props => simp [isGroup] at h
  | _ => rfl

theorem flattened_of_not_group {attributes : List Markup}
    (h : ∀ attr ∈ attributes, isGroup attr = false) : flattened attributes = attributes := by
  induction attributes with
  | nil => rfl
  | cons attr rest ih =>
      rw [List.forall_mem_cons] at h
      rw [flattened_cons, ungrouped_of_not_group h.1, ih h.2]
      rfl

theorem flattened_grouped (props : List (String × Markup)) :
    flattened (grouped props) = props.map fun prop => .prop prop.1 prop.2 := by
  cases props with
  | nil => rfl
  | cons prop rest => simp [grouped, flattened, ungrouped]

theorem isPlainProp_of_meta {attr : Markup} (h : isMetaProp attr = true) :
    isPlainProp attr = false := by
  cases attr with
  | prop name value => simpa [isPlainProp, isMetaProp] using h
  | _ => rfl

theorem isGroup_of_spread_or_meta {attr : Markup}
    (h : isSpread attr = true ∨ isMetaProp attr = true) : isGroup attr = false := by
  cases attr with
  | group props => simp [isSpread, isMetaProp] at h
  | _ => rfl

theorem isGroup_of_meta {attr : Markup} (h : isMetaProp attr = true) : isGroup attr = false :=
  isGroup_of_spread_or_meta (Or.inr h)

/-- In front of what is in order, anything but a group may stand. -/
theorem isChain_append_of_not_group {front back : List Markup}
    (hfront : ∀ attr ∈ front, isGroup attr = false)
    (hhead : ∀ attr ∈ back.head?, isGroup attr = false) (hback : back.IsChain MayFollow) :
    (front ++ back).IsChain MayFollow ∧ ∀ attr ∈ (front ++ back).head?, isGroup attr = false := by
  induction front with
  | nil => exact ⟨hback, hhead⟩
  | cons attr rest ih =>
      rw [List.forall_mem_cons] at hfront
      have hrest := ih hfront.2
      refine ⟨List.isChain_cons.mpr ⟨fun next hnext => ⟨fun hgroup => ?_, fun hgroup => ?_⟩,
        hrest.1⟩, ?_⟩
      · exact absurd hgroup (by simp [hrest.2 next hnext])
      · exact absurd hgroup (by simp [hfront.1])
      · simpa using hfront.1

/-! ## Arranging does what is asked -/

/-- The plain props in front and what is merged are all that is no meta prop. -/
theorem flattened_merged {attributes : List Markup} (h : ∀ attr ∈ attributes, IsAttribute attr) :
    (leading attributes).map (fun prop => .prop prop.1 prop.2) ++ flattened (merged attributes) =
      attributes.filter fun attr => !isMetaProp attr := by
  induction attributes with
  | nil => rfl
  | cons attr rest ih =>
      rw [List.forall_mem_cons] at h
      have hrest := ih h.2
      rcases isAttribute_cases h.1 with ⟨name, value, rfl⟩ | ⟨value, rfl⟩
      · by_cases hmeta : isMeta name = true
        · rw [leading_meta hmeta, merged_prop, hrest,
            List.filter_cons_of_neg (by simp [isMetaProp, hmeta])]
        · rw [leading_plain hmeta, merged_prop,
            List.filter_cons_of_pos (by simp [isMetaProp, hmeta]), ← hrest]
          rfl
      · rw [leading_spread, merged_spread, List.filter_cons_of_pos rfl, ← hrest, List.cons_append,
          flattened_cons, flattened_append, flattened_grouped]
        rfl

/-- What is merged starts with a spread, unless there is none. -/
theorem head_merged (attributes : List Markup) {metas : List Markup}
    (hmetas : ∀ attr ∈ metas, isMetaProp attr = true) :
    ∀ attr ∈ (merged attributes ++ metas).head?, isSpread attr = true ∨ isMetaProp attr = true := by
  fun_induction merged attributes with
  | case1 => exact fun attr hattr => Or.inr (hmetas attr (List.mem_of_mem_head? hattr))
  | case2 value rest ih => simp [isSpread]
  | case3 first rest hother ih => exact ih

/-- What is merged is in order, whatever meta props come behind it. -/
theorem isChain_merged (attributes : List Markup) {metas : List Markup}
    (hmetas : ∀ attr ∈ metas, isMetaProp attr = true) :
    (merged attributes ++ metas).IsChain MayFollow := by
  fun_induction merged attributes with
  | case1 =>
      have hfront := fun attr hattr => isGroup_of_meta (hmetas attr hattr)
      simpa using (isChain_append_of_not_group hfront (by simp) List.IsChain.nil).1
  | case2 value rest ih =>
      have hnext : ∀ attr, ∀ next ∈ (merged rest ++ metas).head?, MayFollow attr next := by
        intro attr next hnext
        have hkind := head_merged rest hmetas next hnext
        exact ⟨by simp [isGroup_of_spread_or_meta hkind], fun _ => hkind⟩
      rw [List.append_assoc, List.cons_append]
      unfold grouped
      by_cases hnone : (leading rest).isEmpty = true
      · rw [if_pos hnone, List.nil_append]
        exact List.isChain_cons.mpr ⟨hnext _, ih⟩
      · rw [if_neg hnone, List.singleton_append, List.isChain_cons_cons]
        refine ⟨⟨fun _ => rfl, fun hgroup => ?_⟩, List.isChain_cons.mpr ⟨hnext _, ih⟩⟩
        simp [isGroup] at hgroup
  | case3 first rest hother ih => exact ih

theorem isArrangement_arranged {attributes : List Markup}
    (h : ∀ attr ∈ attributes, IsAttribute attr) :
    IsArrangement attributes (arranged attributes) := by
  have hmetas := meta_of_mem_filter attributes
  have hfront : ∀ attr ∈ (leading attributes).map (fun prop => Markup.prop prop.1 prop.2),
      isGroup attr = false ∧ isSpread attr = false := by
    intro attr hattr
    rcases List.mem_map.mp hattr with ⟨prop, -, rfl⟩
    exact ⟨rfl, rfl⟩
  -- Behind the plain props in front there is nothing but spreads, groups and meta props.
  have hplain : ∀ attr ∈ merged attributes ++ attributes.filter isMetaProp,
      isPlainProp attr = false := by
    intro attr hattr
    rcases List.mem_append.mp hattr with hattr | hattr
    · rcases mem_merged hattr with ⟨value, rfl, -⟩ | ⟨props, rfl, -⟩
      · rfl
      · rfl
    · exact isPlainProp_of_meta (hmetas attr hattr)
  have hhead : ∀ attr ∈ (merged attributes ++ attributes.filter isMetaProp).head?,
      isGroup attr = false :=
    fun attr hattr => isGroup_of_spread_or_meta (head_merged attributes hmetas attr hattr)
  have hchain := isChain_append_of_not_group (fun attr hattr => (hfront attr hattr).1) hhead
    (isChain_merged attributes hmetas)
  rw [arranged_eq h, List.append_assoc]
  refine ⟨?_, ?_, hchain.2, hchain.1, ?_⟩
  · rw [flattened_append, flattened_append,
      flattened_of_not_group fun attr hattr => (hfront attr hattr).1,
      flattened_of_not_group fun attr hattr => isGroup_of_meta (hmetas attr hattr),
      ← List.append_assoc, flattened_merged h]
  · intro props hprops
    rcases List.mem_append.mp hprops with hprops | hprops
    · exact absurd (hfront _ hprops).1 (by simp [isGroup])
    · rcases List.mem_append.mp hprops with hprops | hprops
      · rcases mem_merged hprops with ⟨value, hspread, -⟩ | ⟨props', hgroup, hne, hplain⟩
        · simp at hspread
        · rw [Markup.group.inj hgroup]
          exact ⟨hne, fun prop hprop => (hplain prop hprop).1⟩
      · exact absurd (isGroup_of_meta (hmetas _ hprops)) (by simp [isGroup])
  · rw [List.pairwise_append]
    refine ⟨?_, ?_, ?_⟩
    · exact List.pairwise_of_forall_mem_list fun attr hattr _ _ hspread =>
        absurd hspread (by simp [(hfront attr hattr).2])
    · exact List.pairwise_of_forall_mem_list fun _ _ later hlater _ => hplain later hlater
    · exact fun _ _ later hlater _ => hplain later hlater

/-! ## One list is in order -/

theorem all_meta {attributes : List Markup} (h : ∀ attr ∈ attributes, isMetaProp attr = true) :
    flattened attributes = attributes ∧ leading attributes = [] ∧ merged attributes = [] ∧
      attributes.filter isMetaProp = attributes := by
  refine ⟨flattened_of_not_group fun attr hattr => isGroup_of_meta (h attr hattr), ?_, ?_,
    List.filter_eq_self.mpr h⟩
  · induction attributes with
    | nil => rfl
    | cons attr rest ih =>
        rw [List.forall_mem_cons] at h
        cases attr with
        | prop name value => exact (leading_meta h.1 value rest).trans (ih h.2)
        | _ => rfl
  · induction attributes with
    | nil => rfl
    | cons attr rest ih =>
        rw [List.forall_mem_cons] at h
        cases attr with
        | prop name value => exact ih h.2
        | _ => simp [isMetaProp] at h

/-- Plain props of a group come before all that is taken from what is behind them. -/
theorem group_cons {props : List (String × Markup)} (h : ∀ prop ∈ props, isMeta prop.1 = false)
    (rest : List Markup) :
    leading (flattened (.group props :: rest)) = props ++ leading (flattened rest) ∧
      merged (flattened (.group props :: rest)) = merged (flattened rest) ∧
      (flattened (.group props :: rest)).filter isMetaProp =
        (flattened rest).filter isMetaProp := by
  rw [flattened_cons, ungrouped]
  induction props with
  | nil => exact ⟨rfl, rfl, rfl⟩
  | cons prop others ih =>
      rw [List.forall_mem_cons] at h
      rcases ih h.2 with ⟨hleading, hmerged, hmetas⟩
      rw [List.map_cons, List.cons_append, leading_plain (by simp [h.1]), merged_prop,
        List.filter_cons_of_neg (by simp [isMetaProp, h.1]), hleading, hmerged, hmetas]
      exact ⟨rfl, rfl, rfl⟩

/-- A meta prop has nothing but meta props behind it. -/
def MetaLast (result : List Markup) : Prop :=
  result.Pairwise fun attr later => isMetaProp attr = true → isMetaProp later = true

theorem meta_of_metaLast {attr : Markup} {rest : List Markup} (h : MetaLast (attr :: rest))
    (hattr : isMetaProp attr = true) : ∀ other ∈ attr :: rest, isMetaProp other = true :=
  List.forall_mem_cons.mpr
    ⟨hattr, fun later hlater => (List.pairwise_cons.mp h).1 later hlater hattr⟩

/-- What has flattened in the order that is asked for had its meta props last. -/
theorem metaLast_of_flattened {result front back : List Markup}
    (h : flattened result = front ++ back) (hfront : ∀ attr ∈ front, isMetaProp attr = false)
    (hback : ∀ attr ∈ back, isMetaProp attr = true)
    (hgroup : PlainGroups result) : MetaLast result := by
  have hflat : MetaLast (flattened result) := by
    rw [h, MetaLast, List.pairwise_append]
    refine ⟨?_, ?_, ?_⟩
    · exact List.pairwise_of_forall_mem_list fun attr hattr _ _ hmeta =>
        absurd hmeta (by simp [hfront attr hattr])
    · exact List.pairwise_of_forall_mem_list fun _ _ later hlater _ => hback later hlater
    · exact fun _ _ later hlater _ => hback later hlater
  rw [MetaLast, flattened, List.pairwise_flatMap] at hflat
  refine hflat.2.imp_of_mem fun {attr later} _ hlater hpair hattr => ?_
  have hself := ungrouped_of_not_group (isGroup_of_meta hattr)
  cases later with
  | group props =>
      -- The first prop of a group is none that may stand behind a meta prop.
      rcases hgroup props hlater with ⟨hne, hplain⟩
      rcases List.exists_mem_of_ne_nil props hne with ⟨prop, hprop⟩
      have hmeta := hpair attr (by simp [hself]) (.prop prop.1 prop.2)
        (List.mem_map.mpr ⟨prop, hprop, rfl⟩) hattr
      exact absurd hmeta (by simp [isMetaProp, hplain prop hprop])
  | _ => exact hpair attr (by simp [hself]) _ (List.mem_singleton_self _) hattr

section InOrder

variable {result : List Markup}

/-- Behind a spread, a list that is in order is known from its attributes. The induction takes
    one attribute at a time, and a group takes back several. -/
theorem behind_flattened (hattributes : ∀ attr ∈ flattened result, IsAttribute attr)
    (hgroup : PlainGroups result) (hadjacent : result.IsChain MayFollow) (hmeta : MetaLast result)
    (hplain : ∀ attr ∈ result, isPlainProp attr = false) :
    grouped (leading (flattened result)) ++ merged (flattened result) ++
      (flattened result).filter isMetaProp = result := by
  induction result with
  | nil => rfl
  | cons attr rest ih =>
      rw [List.forall_mem_cons] at hplain
      rw [List.isChain_cons] at hadjacent
      rw [flattened_cons, List.forall_mem_append] at hattributes
      have hrest := ih hattributes.2 hgroup.tail hadjacent.2 (List.pairwise_cons.mp hmeta).2
        hplain.2
      cases attr with
      | spread value => exact congrArg (Markup.spread value :: ·) hrest
      | prop name value =>
          have hname : isMeta name = true := by simpa [isPlainProp] using hplain.1
          rcases all_meta (meta_of_metaLast hmeta hname) with ⟨hflat, hleading, hmerged, hmetas⟩
          rw [hflat, hleading, hmerged, hmetas]
          rfl
      | group props =>
          rcases hgroup props List.mem_cons_self with ⟨hne, hprops⟩
          rcases group_cons hprops rest with ⟨hleading, hmerged, hmetas⟩
          -- Behind the group comes a spread, a meta prop or nothing.
          have hnone : leading (flattened rest) = [] := by
            cases rest with
            | nil => rfl
            | cons next others =>
                rcases (hadjacent.1 next rfl).2 rfl with hspread | hnext
                · cases next <;> simp [isSpread] at hspread
                  rfl
                · have hothers := all_meta
                    (meta_of_metaLast (List.pairwise_cons.mp hmeta).2 hnext)
                  rw [hothers.1, hothers.2.1]
          rw [hnone] at hrest
          rw [hleading, hmerged, hmetas, hnone, List.append_nil, grouped,
            if_neg (by simpa using hne)]
          exact congrArg (Markup.group props :: ·) hrest
      | _ => exact False.elim (hattributes.1 _ (List.mem_singleton_self _))

/-- A list that is in order is what arranging makes of its attributes. -/
theorem arranged_flattened (hattributes : ∀ attr ∈ flattened result, IsAttribute attr)
    (hgroup : PlainGroups result) (hhead : ∀ attr ∈ result.head?, isGroup attr = false)
    (hadjacent : result.IsChain MayFollow) (hmeta : MetaLast result)
    (hbehind : result.Pairwise fun attr later => isSpread attr = true → isPlainProp later = false) :
    arranged (flattened result) = result := by
  rw [arranged_eq hattributes]
  induction result with
  | nil => rfl
  | cons attr rest ih =>
      rw [List.pairwise_cons] at hbehind
      rw [List.isChain_cons] at hadjacent
      rw [flattened_cons, List.forall_mem_append] at hattributes
      have hmeta' : MetaLast rest := (List.pairwise_cons.mp hmeta).2
      cases attr with
      | spread value =>
          have hrest := behind_flattened hattributes.2 hgroup.tail hadjacent.2 hmeta'
            fun later hlater => hbehind.1 later hlater rfl
          exact congrArg (Markup.spread value :: ·) hrest
      | prop name value =>
          by_cases hname : isMeta name = true
          · rcases all_meta (meta_of_metaLast hmeta hname) with ⟨hflat, hleading, hmerged, hmetas⟩
            rw [hflat, hleading, hmerged, hmetas]
            rfl
          · -- A group does not follow a prop, so what is left starts with none either.
            have hhead' : ∀ next ∈ rest.head?, isGroup next = false := by
              intro next hnext
              have hnone := fun hgroup => (hadjacent.1 next hnext).1 hgroup
              simpa [isSpread] using hnone
            have hrest := ih hattributes.2 hgroup.tail hhead' hadjacent.2 hmeta' hbehind.2
            have hflat : flattened (.prop name value :: rest) =
                .prop name value :: flattened rest := rfl
            rw [hflat, leading_plain hname, merged_prop,
              List.filter_cons_of_neg (by simpa [isMetaProp] using hname)]
            exact congrArg (Markup.prop name value :: ·) hrest
      | group props => exact absurd (hhead _ rfl) (by simp [isGroup])
      | _ => exact False.elim (hattributes.1 _ (List.mem_singleton_self _))

end InOrder

/-- Of the lists in which attributes may be rendered, one is in order. -/
theorem eq_arranged {attributes result : List Markup}
    (hattributes : ∀ attr ∈ attributes, IsAttribute attr) (h : IsArrangement attributes result) :
    result = arranged attributes := by
  have hfront := other_of_mem_filter attributes
  have hback := meta_of_mem_filter attributes
  have hflat : ∀ attr ∈ flattened result, IsAttribute attr := by
    intro attr hattr
    rw [h.flat, List.mem_append, List.mem_filter, List.mem_filter] at hattr
    rcases hattr with hattr | hattr
    · exact hattributes attr hattr.1
    · exact hattributes attr hattr.1
  have hmeta := metaLast_of_flattened h.flat hfront hback h.group
  have hresult := arranged_flattened hflat h.group h.head h.adjacent hmeta h.behind
  -- Arranging does not look at where the meta props were.
  rw [← hresult, h.flat, arranged_append hfront hback, ← arranged_filter]

/-! ## Any list of attributes -/

namespace Arrangement

theorem flattened_result (a : Arrangement) :
    flattened a.result =
      flattened a.placed.reverse ++ a.pending.reverse.map (fun prop => .prop prop.1 prop.2) ++
        flattened a.deferred.reverse := by
  rw [result, reverse_flushed, flattened_append, flattened_append, flattened_grouped]

/-- One step loses and doubles nothing. -/
theorem flattened_add (a : Arrangement) (attr : Markup) :
    (flattened (a.add attr).result).Perm (flattened a.result ++ ungrouped attr) := by
  -- What is new may come out before what waits or is deferred.
  have hbetween : ∀ front new back : List Markup,
      (front ++ new ++ back).Perm (front ++ back ++ new) := by
    intro front new back
    rw [List.append_assoc, List.append_assoc]
    exact List.perm_append_comm.append_left front
  have hplaced : ∀ attr, (flattened ({ a with placed := attr :: a.placed }).result).Perm
      (flattened a.result ++ ungrouped attr) := by
    intro attr
    rw [flattened_result, flattened_result, List.reverse_cons, flattened_append,
      List.append_assoc _ _ (flattened _), List.append_assoc (flattened _) (List.map _ _)]
    have hself : flattened [attr] = ungrouped attr := by simp [flattened]
    rw [hself]
    exact hbetween _ _ _
  cases attr with
  | prop name value =>
      rw [add]
      by_cases hmeta : isMeta name = true
      · rw [if_pos hmeta, flattened_result, flattened_result, List.reverse_cons, flattened_append,
          ← List.append_assoc]
        exact .refl _
      · rw [if_neg hmeta]
        by_cases hbehind : a.behindSpread = true
        · rw [if_pos hbehind, flattened_result, flattened_result, List.reverse_cons,
            List.map_append, ← List.append_assoc]
          exact hbetween _ _ _
        · rw [if_neg hbehind]
          exact hplaced _
  | spread value =>
      rw [add, flattened_result, flattened_result, List.reverse_cons, reverse_flushed,
        flattened_append, flattened_append, flattened_grouped, List.reverse_nil, List.map_nil,
        List.append_nil]
      exact hbetween _ _ _
  | _ => exact hplaced _

theorem flattened_foldl_add (a : Arrangement) (attributes : List Markup) :
    (flattened (attributes.foldl add a).result).Perm
      (flattened a.result ++ flattened attributes) := by
  induction attributes generalizing a with
  | nil => simp [flattened]
  | cons attr rest ih =>
      rw [List.foldl_cons, flattened_cons, ← List.append_assoc]
      exact (ih (a.add attr)).trans ((flattened_add a attr).append_right _)

/-- What the walk keeps to if it meets no meta props: none is in place, before the first spread
    nothing waits, and behind one no plain prop is in place. -/
structure Settled (a : Arrangement) : Prop where
  others : ∀ attr ∈ a.placed, isMetaProp attr = false
  before : a.behindSpread = false → a.pending = [] ∧ ∀ attr ∈ a.placed, isSpread attr = false
  behind : a.placed.Pairwise fun later attr => isSpread attr = true → isPlainProp later = false

/-- The last group changes nothing about that. -/
theorem Settled.flushed {a : Arrangement} (h : a.Settled) :
    (∀ attr ∈ a.flushed, isMetaProp attr = false) ∧
      a.flushed.Pairwise fun later attr => isSpread attr = true → isPlainProp later = false := by
  unfold Arrangement.flushed
  by_cases hnone : a.pending.isEmpty = true
  · rw [if_pos hnone]
    exact ⟨h.others, h.behind⟩
  · rw [if_neg hnone, List.forall_mem_cons, List.pairwise_cons]
    exact ⟨⟨rfl, h.others⟩, fun _ _ _ => rfl, h.behind⟩

theorem settled_add {a : Arrangement} (h : a.Settled) {attr : Markup}
    (hattr : isMetaProp attr = false) : (a.add attr).Settled := by
  have hplaced : isSpread attr = false → (isPlainProp attr = true → a.behindSpread = false) →
      ({ a with placed := attr :: a.placed } : Arrangement).Settled := by
    intro hspread hplain
    refine ⟨List.forall_mem_cons.mpr ⟨hattr, h.others⟩, fun hbefore => ?_, ?_⟩
    · exact ⟨(h.before hbefore).1, List.forall_mem_cons.mpr ⟨hspread, (h.before hbefore).2⟩⟩
    · refine List.pairwise_cons.mpr ⟨fun other hother hspread => ?_, h.behind⟩
      -- A plain prop is put in place only before the first spread.
      by_contra hnot
      have hfirst := (h.before (hplain (by simpa using hnot))).2 other hother
      exact absurd hspread (by simp [hfirst])
  cases attr with
  | prop name value =>
      rw [add, if_neg (by simpa [isMetaProp] using hattr)]
      by_cases hbehind : a.behindSpread = true
      · rw [if_pos hbehind]
        exact ⟨h.others, fun hbefore => absurd hbefore (by simp [hbehind]), h.behind⟩
      · rw [if_neg hbehind]
        exact hplaced rfl fun _ => by simpa using hbehind
  | spread value =>
      refine ⟨List.forall_mem_cons.mpr ⟨rfl, h.flushed.1⟩, by simp [add], ?_⟩
      exact List.pairwise_cons.mpr ⟨fun _ _ _ => rfl, h.flushed.2⟩
  | _ => exact hplaced rfl (by simp [isPlainProp])

theorem settled_foldl_add {a : Arrangement} (h : a.Settled) {attributes : List Markup}
    (hattributes : ∀ attr ∈ attributes, isMetaProp attr = false) :
    (attributes.foldl add a).Settled := by
  induction attributes generalizing a with
  | nil => exact h
  | cons attr rest ih =>
      rw [List.forall_mem_cons] at hattributes
      exact ih (settled_add h hattributes.1) hattributes.2

/-- Without a plain prop behind a spread, every attribute is put in place as it comes. -/
theorem foldl_add_settled {a : Arrangement} (hpending : a.pending = []) {attributes : List Markup}
    (hattributes : ∀ attr ∈ attributes, isMetaProp attr = false)
    (hbehind : attributes.Pairwise fun attr later =>
      isSpread attr = true → isPlainProp later = false)
    (hfirst : a.behindSpread = true → ∀ attr ∈ attributes, isPlainProp attr = false) :
    (attributes.foldl add a).result =
      a.placed.reverse ++ attributes ++ a.deferred.reverse := by
  induction attributes generalizing a with
  | nil => simp [result, flushed, hpending]
  | cons attr rest ih =>
      rw [List.forall_mem_cons] at hattributes
      rw [List.pairwise_cons] at hbehind
      have hrest : a.behindSpread = true → ∀ attr ∈ rest, isPlainProp attr = false :=
        fun hspread => (List.forall_mem_cons.mp (hfirst hspread)).2
      have hplaced := @ih { a with placed := attr :: a.placed } hpending hattributes.2 hbehind.2
        hrest
      rw [List.foldl_cons]
      cases attr with
      | prop name value =>
          have hname : isMeta name ≠ true := by simpa [isMetaProp] using hattributes.1
          have hbefore : a.behindSpread ≠ true := by
            intro hspread
            exact absurd (hfirst hspread _ List.mem_cons_self) (by simp [isPlainProp, hname])
          rw [add, if_neg hname, if_neg hbefore, hplaced]
          simp
      | spread value =>
          have hflushed : a.flushed = a.placed := by simp [flushed, hpending]
          have hnext := @ih (a.add (.spread value)) rfl hattributes.2 hbehind.2
            fun _ later hlater => hbehind.1 later hlater rfl
          rw [hnext]
          simp [add, hflushed]
      | _ => exact hplaced.trans (by simp)

end Arrangement

/-- Attributes without meta props are put into an order that stays as it is. -/
theorem arranged_arranged_of_other {attributes : List Markup}
    (h : ∀ attr ∈ attributes, isMetaProp attr = false) :
    (∀ attr ∈ arranged attributes, isMetaProp attr = false) ∧
      arranged (arranged attributes) = arranged attributes := by
  have hsettled : (attributes.foldl Arrangement.add {}).Settled :=
    Arrangement.settled_foldl_add ⟨by simp, by simp, by simp⟩ h
  have hresult : arranged attributes =
      (attributes.foldl Arrangement.add {}).flushed.reverse := by
    have hnone : attributes.filter isMetaProp = [] := by simpa using h
    rw [arranged, Arrangement.foldl_add_filter, hnone]
    simp [Arrangement.deferring, Arrangement.flushed]
  have hothers : ∀ attr ∈ arranged attributes, isMetaProp attr = false := by
    intro attr hattr
    rw [hresult, List.mem_reverse] at hattr
    exact hsettled.flushed.1 attr hattr
  refine ⟨hothers, ?_⟩
  have hbehind : (arranged attributes).Pairwise fun attr later =>
      isSpread attr = true → isPlainProp later = false := by
    rw [hresult, List.pairwise_reverse]
    exact hsettled.flushed.2
  have hagain := @Arrangement.foldl_add_settled {} rfl _ hothers hbehind (by simp)
  simpa [Arrangement.result, arranged] using hagain

/-- Of the lists in which attributes that are read may be rendered, exactly one does what is
    asked of it. Whatever else stands among attributes, taking the groups apart gives the same
    attributes before and after, in some order, and what is arranged stays as it is. -/
theorem arranged_characterized :
    (∀ attributes : List Markup, (∀ attr ∈ attributes, IsAttribute attr) →
      ∀ result, IsArrangement attributes result ↔ result = arranged attributes) ∧
    ∀ attributes : List Markup,
      (flattened (arranged attributes)).Perm (flattened attributes) ∧
        arranged (arranged attributes) = arranged attributes := by
  refine ⟨fun attributes hattributes result => ⟨eq_arranged hattributes, ?_⟩,
    fun attributes => ⟨?_, ?_⟩⟩
  · rintro rfl
    exact isArrangement_arranged hattributes
  · exact Arrangement.flattened_foldl_add {} attributes
  · -- The meta props are found at the end again.
    rcases arranged_arranged_of_other (other_of_mem_filter attributes) with ⟨hfront, hagain⟩
    rw [arranged_filter attributes, arranged_append hfront (meta_of_mem_filter attributes), hagain]

/-- A prop between two spreads, and a meta prop among them. -/
theorem arranged_characterized_between :
    IsArrangement
      [.prop "a" (.flag true), .spread (.expression "s"), .prop "@if.x" (.flag true),
        .prop "b" (.flag true), .spread (.expression "t")]
      [.prop "a" (.flag true), .spread (.expression "s"), .group [("b", .flag true)],
        .spread (.expression "t"), .prop "@if.x" (.flag true)] :=
  (arranged_characterized.1 _ (by simp [IsAttribute]) _).mpr rfl

end Fusion

end Afx
