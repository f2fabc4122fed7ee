import Afx.Proofs.Fields
import Mathlib.Data.List.Basic
import Mathlib.Data.List.Induction

/-!
# The Tree That Markup Stands For

Rendering walks through markup with a budget, reports the first fault, and
collects entries on the way. What it is meant to give can be said without any of
that, by structural recursion on markup alone. A list of siblings is one value:
an empty text if nothing can be seen, a single value as it is, and else an
object with a member for each. A tag is an object: what it is told about the
tag, then the entries of its attributes, of the children with a path of their
own, and of the other children together.

The tree is total, and rendering is not. Whenever rendering gives a value, that
value is the tree, whatever the budget was. The induction is on the budget,
since a tag's content is rendered from a sublist of its children.

## Main definitions

* `pathOf`, `memberKey`: Where a value goes among others.
* `AsksPath`: The children that go to a path of their own.
* `joined`: The value of siblings, by the values of those that can be seen.
* `assignAll`: Gives keys their values, one after another.
* `tree`, `trees`: The value of markup, and of those siblings that can be seen.
* `renderedPlaced`, `renderedContent`: The two ways in which children are rendered.
* `RendersTrees`: A budget with which nothing but trees is rendered.

## Theorems

* `placedFrom_eq_ok`: Children with a path of their own are placed in order.
* `value_element`: The steps of rendering a tag, in their order.
* `siblings_of_members`: Siblings are joined if each is rendered as its tree.
* `element_eq_ok`: A tag is its tree if its children are.
* `rendersTrees`: Whatever the budget, a rendering gives trees.
-/

namespace Afx

namespace Fusion

open Markup

/-! ## The tree -/

/-- The path of its own that a child has. -/
def pathOf : Markup → Option String
  | .element _ _ attributes _ => directive? "@path" attributes
  | _ => none

/-- A child asks for a path of its own if it is a tag with a prop for it, whatever the
    value of the prop is. -/
def AsksPath : Markup → Prop
  | .element _ _ attributes _ => ∃ value, .prop "@path" value ∈ attributes
  | _ => False

/-- The path of a sibling in an object of several: its own key, or its number. -/
def memberKey (number : Nat) : Markup → String
  | .element _ _ attributes _ => (directive? "@key" attributes).getD ("item_" ++ toString number)
  | _ => "item_" ++ toString number

/-- The value of siblings, by those that can be seen and their values. -/
def joined (v : Vocabulary) : List (Markup × Value) → Value
  | [] => .text ""
  | [single] => single.2
  | several =>
    .object v.join ((several.zipIdx 1).map fun (part, number) => (memberKey number part.1, part.2))

/-- Gives keys their values, one after another: a key stands where it first appears,
    and has the value that comes last. -/
def assignAll {α β : Type} [BEq α] (entries placed : List (α × β)) : List (α × β) :=
  entries.foldl (fun placed entry => assign entry.1 entry.2 placed) placed

/-- Entries for the children with a path of their own. -/
def placedEntries (parts : List (Markup × Value)) : List (String × Value) :=
  assignAll (parts.filterMap fun part => (pathOf part.1).map fun path => (path, part.2)) []

/-- The entry for the other children of a tag, if there are any. -/
def contentEntries (v : Vocabulary) (attributes children : List Markup)
    (parts : List (Markup × Value)) : List (String × Value) :=
  if children.all fun child => (pathOf child).isSome then []
  else [((directive? "@children" attributes).getD v.children,
    joined v (parts.filter fun part => (pathOf part.1).isNone))]

mutual

/-- The value that markup stands for, if it can be seen. -/
def tree (v : Vocabulary) : Markup → Option Value
  | .expression code => some (.expression code)
  | .text raw => if normalise raw == "" then none else some (.text (normalise raw))
  | .element name selfClosing attributes children =>
    let entries := attributeEntries v name attributes ++ placedEntries (trees v children) ++
      contentEntries v attributes children (trees v children)
    some (if isPrototype name then .object name entries
      else .object v.tag (("tagName", .text name) ::
        ((if selfClosing then [("selfClosingTag", .boolean true)] else []) ++ entries)))
  | _ => none

/-- The siblings that can be seen, with the values that they stand for. -/
def trees (v : Vocabulary) : List Markup → List (Markup × Value)
  | [] => []
  | one :: rest =>
    match tree v one with
    | some value => (one, value) :: trees v rest
    | none => trees v rest

end

/-- The object of a tag begins with what it is told about the tag. -/
theorem tree_element (v : Vocabulary) (name : String) (selfClosing : Bool)
    (attributes children : List Markup) :
    tree v (.element name selfClosing attributes children) =
      some (.object (v.prototype name) (introduction name selfClosing ++
        attributeEntries v name attributes ++ placedEntries (trees v children) ++
        contentEntries v attributes children (trees v children))) := by
  rw [tree, Vocabulary.prototype, introduction]
  by_cases hname : isPrototype name = true
  · simp only [hname, if_true, List.nil_append]
  · simp only [hname, if_false, Bool.false_eq_true, List.cons_append, List.append_assoc]

theorem trees_eq (v : Vocabulary) (values : List Markup) :
    trees v values = values.filterMap fun one => (tree v one).map fun value => (one, value) := by
  induction values with
  | nil => rfl
  | cons one rest ih =>
      rw [trees, List.filterMap_cons, ih]
      cases tree v one <;> rfl

/-! ## Children with a path of their own -/

theorem map_assign {α β γ : Type} [BEq α] (f : β → γ) (key : α) (value : β)
    (entries : List (α × β)) :
    (assign key value entries).map (fun entry => (entry.1, f entry.2)) =
      assign key (f value) (entries.map fun entry => (entry.1, f entry.2)) := by
  induction entries with
  | nil => rfl
  | cons entry rest ih =>
      rcases entry with ⟨other, old⟩
      by_cases h : other == key
      · simp [assign, h]
      · simp [assign, h, ih]

theorem lastProp?_eq_none_iff {name : String} {attributes : List Markup} :
    lastProp? name attributes = none ↔ ∀ value, .prop name value ∉ attributes := by
  rw [lastProp?, List.getLast?_eq_none_iff, List.filterMap_eq_nil_iff]
  constructor
  · intro h value hmem
    simpa [valueOf?] using h _ hmem
  · intro h attr hattr
    cases attr with
    | prop other value =>
        have hother : other ≠ name := by
          rintro rfl
          exact h value hattr
        exact valueOf?_prop_of_ne hother value
    | _ => rfl

theorem ownPath?_eq_none_iff {child : Markup} : ownPath? child = none ↔ ¬ AsksPath child := by
  cases child with
  | element name selfClosing attributes children =>
      rw [ownPath?, Option.map_eq_none_iff, lastProp?_eq_none_iff, AsksPath, not_exists]
  | _ => simp [ownPath?, AsksPath]

theorem ownPath?_eq_ok {child : Markup} {path : String} (h : ownPath? child = some (.ok path)) :
    pathOf child = some path := by
  cases child with
  | element name selfClosing attributes children =>
      rw [ownPath?, Option.map_eq_some_iff] at h
      rcases h with ⟨value, hvalue, hpayload⟩
      rw [pathOf, directive?, hvalue]
      exact payload_eq_ok hpayload
  | _ => simp [ownPath?] at h

theorem pathOf_eq_none {child : Markup} (h : ownPath? child = none) : pathOf child = none := by
  cases child with
  | element name selfClosing attributes children =>
      rw [ownPath?, Option.map_eq_none_iff] at h
      rw [pathOf, directive?, h]
      rfl
  | _ => rfl

/-- Children are placed one after another, and a fault in any of them is one of all. -/
theorem placedFrom_eq_ok {placed result : List (String × Markup)} {children : List Markup}
    (h : placedFrom placed children = .ok result) :
    (∀ child ∈ children, (ownPath? child).isNone = (pathOf child).isNone) ∧
      result =
        assignAll (children.filterMap fun child => (pathOf child).map fun path => (path, child))
          placed := by
  fun_induction placedFrom placed children with
  | case1 placed =>
      rw [Except.ok.injEq] at h
      exact ⟨by simp, h.symm⟩
  | case2 placed child rest hpath ih =>
      rcases ih h with ⟨hrest, hresult⟩
      have hnone := pathOf_eq_none hpath
      refine ⟨?_, ?_⟩
      · intro other hother
        rcases List.mem_cons.mp hother with rfl | hother
        · rw [hpath, hnone]
          rfl
        · exact hrest other hother
      · rw [List.filterMap_cons_none (by rw [hnone]; rfl)]
        exact hresult
  | case3 placed child rest path hpath ih =>
      rcases ih h with ⟨hrest, hresult⟩
      have hsome := ownPath?_eq_ok hpath
      refine ⟨?_, ?_⟩
      · intro other hother
        rcases List.mem_cons.mp hother with rfl | hother
        · rw [hpath, hsome]
          rfl
        · exact hrest other hother
      · rw [List.filterMap_cons_some (by rw [hsome]; rfl)]
        exact hresult
  | case4 => simp at h

theorem mem_assign {α β : Type} [BEq α] {key : α} {value : β} {entries : List (α × β)}
    {entry : α × β} (h : entry ∈ assign key value entries) :
    entry = (key, value) ∨ entry ∈ entries := by
  induction entries with
  | nil => exact Or.inl (List.mem_singleton.mp h)
  | cons first rest ih =>
      rcases first with ⟨other, old⟩
      rw [assign] at h
      by_cases hkey : other == key
      · rw [if_pos hkey, List.mem_cons] at h
        rcases h with h | h
        · exact Or.inl h
        · exact Or.inr (List.mem_cons_of_mem _ h)
      · rw [if_neg hkey, List.mem_cons] at h
        rcases h with h | h
        · exact Or.inr (by rw [h]; exact List.mem_cons_self)
        · rcases ih h with h | h
          · exact Or.inl h
          · exact Or.inr (List.mem_cons_of_mem _ h)

theorem mem_assignAll {α β : Type} [BEq α] {entries placed : List (α × β)} {entry : α × β}
    (h : entry ∈ assignAll entries placed) : entry ∈ placed ∨ entry ∈ entries := by
  induction entries generalizing placed with
  | nil => exact Or.inl h
  | cons first rest ih =>
      rcases ih h with h | h
      · rcases mem_assign h with h | h
        · exact Or.inr (by rw [h]; exact List.mem_cons_self)
        · exact Or.inl h
      · exact Or.inr (List.mem_cons_of_mem _ h)

theorem nodup_assign {α β : Type} [BEq α] [LawfulBEq α] (key : α) (value : β)
    {entries : List (α × β)} (h : (entries.map Prod.fst).Nodup) :
    ((assign key value entries).map Prod.fst).Nodup := by
  rw [map_fst_assign]
  by_cases hkey : (entries.map Prod.fst).contains key = true
  · rw [if_pos hkey]
    exact h
  · rw [if_neg hkey, List.nodup_append]
    refine ⟨h, by simp, fun other hother found hfound => ?_⟩
    rw [List.mem_singleton.mp hfound]
    rintro rfl
    exact hkey (List.contains_iff_mem.mpr hother)

theorem nodup_assignAll {α β : Type} [BEq α] [LawfulBEq α] (entries : List (α × β))
    {placed : List (α × β)} (h : (placed.map Prod.fst).Nodup) :
    ((assignAll entries placed).map Prod.fst).Nodup := by
  induction entries generalizing placed with
  | nil => exact h
  | cons first rest ih => exact ih (nodup_assign first.1 first.2 h)

/-- Where keys differ, a key has one value, and giving it a value replaces it. -/
theorem mem_assign_iff {α β : Type} [BEq α] [LawfulBEq α] {key other : α} {value found : β}
    {entries : List (α × β)} (h : (entries.map Prod.fst).Nodup) :
    (other, found) ∈ assign key value entries ↔
      other = key ∧ found = value ∨ other ≠ key ∧ (other, found) ∈ entries := by
  induction entries with
  | nil => simp [assign, or_iff_left_of_imp]
  | cons first rest ih =>
      rcases first with ⟨here, old⟩
      rw [List.map_cons, List.nodup_cons] at h
      rw [assign]
      by_cases hkey : (here == key) = true
      · -- The key stands here, and no entry behind has it.
        rw [beq_iff_eq] at hkey
        subst hkey
        have hrest : (other, found) ∈ rest → other ≠ here := by
          rintro hmem rfl
          exact h.1 (List.mem_map.mpr ⟨_, hmem, rfl⟩)
        rw [if_pos (beq_self_eq_true here), List.mem_cons, List.mem_cons, Prod.mk.injEq,
          Prod.mk.injEq]
        grind
      · have hne : here ≠ key := by simpa using hkey
        rw [if_neg hkey, List.mem_cons, List.mem_cons, ih h.2, Prod.mk.injEq]
        grind

/-- Of the values that a key is given, it has the last. -/
theorem mem_assignAll_iff {α β : Type} [BEq α] [LawfulBEq α] {entries : List (α × β)} {key : α}
    {value : β} : (key, value) ∈ assignAll entries [] ↔
      (entries.filter fun entry => entry.1 == key).getLast? = some (key, value) := by
  induction entries using List.reverseRecOn with
  | nil => simp [assignAll]
  | append_singleton entries last ih =>
      have hnodup := @nodup_assignAll α β _ _ entries [] (by simp)
      have hlast : assignAll (entries ++ [last]) [] =
          assign last.1 last.2 (assignAll entries []) := List.foldl_append
      rw [hlast, mem_assign_iff hnodup, ih, List.filter_append, List.filter_singleton]
      by_cases hkey : last.1 = key
      · rw [beq_iff_eq.mpr hkey, cond_true, List.getLast?_append]
        simp [← hkey, Prod.ext_iff, eq_comm]
      · have hne : key ≠ last.1 := fun heq => hkey heq.symm
        rw [beq_eq_false_iff_ne.mpr hkey, cond_false, List.append_nil]
        simp [hne]

theorem map_assignAll {α β γ : Type} [BEq α] (f : β → γ) (entries placed : List (α × β)) :
    (assignAll entries placed).map (fun entry => (entry.1, f entry.2)) =
      assignAll (entries.map fun entry => (entry.1, f entry.2))
        (placed.map fun entry => (entry.1, f entry.2)) := by
  induction entries generalizing placed with
  | nil => rfl
  | cons first rest ih =>
      rw [assignAll, List.foldl_cons, List.map_cons]
      exact (ih _).trans (by rw [map_assign]; rfl)

/-! ## Siblings that can be seen -/

/-- The siblings that can be seen, each with what can be seen of it. -/
def shownPairs (values : List Markup) : List (Markup × Markup) :=
  values.filterMap fun one => (visible? one).map fun shown => (one, shown)

theorem visible_eq (values : List Markup) : visible values = (shownPairs values).map Prod.snd := by
  rw [visible, shownPairs, List.map_filterMap]
  congr 1
  funext one
  cases visible? one <;> rfl

theorem mem_shownPairs {values : List Markup} {pair : Markup × Markup}
    (h : pair ∈ shownPairs values) : pair.1 ∈ values ∧ visible? pair.1 = some pair.2 := by
  rcases List.mem_filterMap.mp h with ⟨one, hone, hpair⟩
  rcases Option.map_eq_some_iff.mp hpair with ⟨shown, hshown, rfl⟩
  exact ⟨hone, hshown⟩

/-- What cannot be seen has no value. -/
theorem tree_of_visible_none (v : Vocabulary) {one : Markup} (h : visible? one = none) :
    tree v one = none := by
  cases one with
  | text raw =>
      rw [visible?] at h
      by_cases hblank : normalise raw == ""
      · rw [tree, if_pos hblank]
      · simp [hblank] at h
  | comment content => rfl
  | foreign datum => rfl
  | _ => simp [visible?] at h

/-- What can be seen of markup with a source: text that is not only layout, without
    its layout, and expressions and tags as they are. -/
theorem visible?_eq_some {one shown : Markup} (hone : WellFormed one)
    (h : visible? one = some shown) :
    (∃ raw, one = .text raw ∧ ¬ (normalise raw == "") = true ∧ shown = .text (normalise raw)) ∨
      (∃ code, one = .expression code ∧ shown = one) ∨
      ∃ name selfClosing attributes children,
        one = .element name selfClosing attributes children ∧ shown = one := by
  rcases wellFormed_cases hone with ⟨content, rfl⟩ | ⟨raw, rfl⟩ | ⟨code, rfl⟩ |
    ⟨name, selfClosing, attributes, children, rfl⟩
  · simp [visible?] at h
  · rw [visible?] at h
    by_cases hblank : (normalise raw == "") = true
    · simp [hblank] at h
    · rw [if_neg hblank, Option.some.injEq] at h
      exact Or.inl ⟨raw, rfl, hblank, h.symm⟩
  · exact Or.inr (Or.inl ⟨code, rfl, (Option.some.inj h).symm⟩)
  · exact Or.inr (Or.inr ⟨name, selfClosing, attributes, children, rfl, (Option.some.inj h).symm⟩)

/-- What can be seen has one, if it has a source. -/
theorem tree_of_visible_some (v : Vocabulary) {one shown : Markup} (hone : WellFormed one)
    (h : visible? one = some shown) : tree v one = some ((tree v one).getD (.text "")) := by
  rcases visible?_eq_some hone h with ⟨raw, rfl, hblank, -⟩ | ⟨code, rfl, -⟩ |
    ⟨name, selfClosing, attributes, children, rfl, -⟩
  · rw [tree, if_neg hblank]
    rfl
  · rfl
  · rfl

theorem trees_eq_shown (v : Vocabulary) {values : List Markup}
    (h : ∀ one ∈ values, WellFormed one) :
    trees v values =
      (shownPairs values).map fun pair => (pair.1, (tree v pair.1).getD (.text "")) := by
  rw [trees_eq, shownPairs, List.map_filterMap]
  refine List.filterMap_congr fun one hone => ?_
  cases hshown : visible? one with
  | none =>
      rw [tree_of_visible_none v hshown]
      rfl
  | some shown =>
      rw [tree_of_visible_some v (h one hone) hshown]
      rfl

/-- What can be seen of a sibling is the sibling, unless it is text. -/
theorem shown_cases {one shown : Markup} (h : visible? one = some shown) :
    shown = one ∨ ∃ raw, one = .text raw ∧ shown = .text (normalise raw) := by
  cases one with
  | text raw =>
      rw [visible?] at h
      by_cases hblank : (normalise raw == "") = true
      · simp [hblank] at h
      · rw [if_neg hblank, Option.some.injEq] at h
        exact Or.inr ⟨raw, rfl, h.symm⟩
  | comment content => simp [visible?] at h
  | foreign datum =>
      cases datum with
      | null => simp [visible?] at h
      | _ => exact Or.inl (Option.some.inj h).symm
  | _ => exact Or.inl (Option.some.inj h).symm

theorem memberKey_shown {one shown : Markup} (h : visible? one = some shown) (number : Nat) :
    memberKey number shown = memberKey number one := by
  rcases shown_cases h with rfl | ⟨raw, rfl, rfl⟩
  · rfl
  · rfl

theorem memberPath_eq_ok {number : Nat} {one : Markup} {path : String}
    (h : memberPath number one = .ok path) : path = memberKey number one := by
  cases one with
  | element name selfClosing attributes children =>
      rw [memberPath] at h
      rw [memberKey, directive?]
      cases hkey : lastProp? "@key" attributes with
      | none =>
          rw [hkey, Except.ok.injEq] at h
          exact h.symm
      | some key =>
          rw [hkey] at h
          rw [Option.bind_some, payload_eq_ok h]
          rfl
  | _ => exact (Except.ok.inj h).symm

/-! ## The steps of rendering a tag -/

/-- Renders the children with a path of their own, each at its path. -/
def renderedPlaced (v : Vocabulary) (n : Nat) (children : List Markup) :
    Except Fault (List (String × Value)) := do
  let placed ← placedChildren children
  collect (fun (path, child) => do
    return (← value v n child).map fun inner => (path, inner)) placed

/-- Renders the other children together, if there are any, at the path for them. -/
def renderedContent (v : Vocabulary) (n : Nat) (property : Option String) (children : List Markup) :
    Except Fault (List (String × Value)) :=
  if (contentChildren children).isEmpty then .ok []
  else (siblings v n (contentChildren children)).map fun inner =>
    [(property.getD v.children, inner)]

theorem renderedPlaced_nil (v : Vocabulary) (n : Nat) : renderedPlaced v n [] = .ok [] :=
  rfl

theorem renderedContent_nil (v : Vocabulary) (n : Nat) (property : Option String) :
    renderedContent v n property [] = .ok [] :=
  rfl

theorem value_element (v : Vocabulary) (n : Nat) (name : String) (selfClosing : Bool)
    (attributes children : List Markup) :
    value v (n + 1) (.element name selfClosing attributes children) = (do
      let found ← prepared attributes
      let fields ← collect (fun (number, attr) => field v n (scope name) number attr)
        (numbered 1 found.1)
      let paths ← renderedPlaced v n children
      let body ← renderedContent v n found.2 children
      return some (.object (v.prototype name)
        (introduction name selfClosing ++ fields ++ paths ++ body))) := by
  rw [value]
  refine bind_congr fun found => bind_congr fun fields => ?_
  rw [renderedPlaced, bind_assoc]
  refine bind_congr fun placed => bind_congr fun paths => ?_
  -- With and without content, the last step gives an object.
  rw [renderedContent]
  by_cases hnone : (contentChildren children).isEmpty = true
  · simp only [hnone, if_true]
    rfl
  · simp only [hnone, if_false, Bool.false_eq_true]

/-! ## A rendering is the tree -/

/-- The members of a list are rendered as their trees. -/
def RendersMembers (v : Vocabulary) (n : Nat) (values : List Markup) : Prop :=
  ∀ one ∈ values, ∀ shown, visible? one = some shown →
    ∀ found, member v n shown = .ok found → found = tree v one

theorem collect_map {α β γ : Type} (render : β → Except Fault (Option γ)) (f : α → β)
    (parts : List α) :
    collect render (parts.map f) = collect (fun part => render (f part)) parts := by
  induction parts with
  | nil => rfl
  | cons part rest ih => rw [List.map_cons, collect, collect, ih]

/-- A pair of a sibling and what can be seen of it, which is rendered as the sibling's
    tree. -/
def RendersPair (v : Vocabulary) (n : Nat) (pair : Markup × Markup) : Prop :=
  WellFormed pair.1 ∧ visible? pair.1 = some pair.2 ∧
    ∀ found, member v n pair.2 = .ok found → found = some ((tree v pair.1).getD (.text ""))

/-- Several siblings become the members of an object. -/
theorem members_eq_ok {v : Vocabulary} {n : Nat} {pairs : List (Markup × Markup)}
    {entries : List (String × Value)} (hpairs : ∀ pair ∈ pairs, RendersPair v n pair)
    (h : collect (fun (one, number) => do
        let path ← memberPath number one
        return (← member v n one).map fun rendered => (path, rendered))
      ((pairs.map Prod.snd).zipIdx 1) = .ok entries) :
    entries = ((pairs.map fun pair => (pair.1, (tree v pair.1).getD (.text ""))).zipIdx 1).map
      fun (part, number) => (memberKey number part.1, part.2) := by
  rw [List.zipIdx_map, collect_map] at h
  rw [List.zipIdx_map, List.map_map, ← List.filterMap_eq_map]
  refine collect_eq_ok h fun part hpart found hfound => ?_
  rcases part with ⟨pair, number⟩
  rcases hpairs pair (List.fst_mem_of_mem_zipIdx hpart) with ⟨-, hshown, hmember⟩
  rcases bind_eq_ok hfound with ⟨path, hpath, hfound⟩
  rcases bind_eq_ok hfound with ⟨rendered, hrendered, hfound⟩
  rw [hmember rendered hrendered, memberPath_eq_ok hpath, memberKey_shown hshown] at hfound
  exact (Except.ok.inj hfound).symm

theorem siblings_of_members {v : Vocabulary} {n : Nat} {values : List Markup} {found : Value}
    (hvalues : ∀ one ∈ values, WellFormed one) (hmembers : RendersMembers v n values)
    (h : siblings v (n + 1) values = .ok found) : found = joined v (trees v values) := by
  have hpairs : ∀ pair ∈ shownPairs values, RendersPair v n pair := by
    intro pair hpair
    rcases mem_shownPairs hpair with ⟨hone, hshown⟩
    refine ⟨hvalues _ hone, hshown, fun found hfound => ?_⟩
    rw [← tree_of_visible_some v (hvalues _ hone) hshown]
    exact hmembers _ hone _ hshown found hfound
  rw [siblings, visible_eq] at h
  rw [trees_eq_shown v hvalues]
  -- The three forms of a result depend only on how many siblings can be seen.
  generalize shownPairs values = pairs at h hpairs ⊢
  rcases pairs with _ | ⟨first, _ | ⟨second, rest⟩⟩
  · exact (Except.ok.inj h).symm
  · rcases bind_eq_ok h with ⟨rendered, hrendered, hfound⟩
    rw [(hpairs first (by simp)).2.2 rendered hrendered] at hfound
    exact (Except.ok.inj hfound).symm
  · rcases bind_eq_ok h with ⟨entries, hentries, hfound⟩
    rw [members_eq_ok hpairs hentries] at hfound
    exact (Except.ok.inj hfound).symm

/-- Rendering with this budget gives trees, if it gives anything. -/
structure RendersTrees (v : Vocabulary) (n : Nat) : Prop where
  siblings : ∀ values, (∀ one ∈ values, WellFormed one) → ∀ found,
    siblings v n values = .ok found → found = joined v (trees v values)
  member : ∀ one, WellFormed one → ∀ shown, visible? one = some shown → ∀ found,
    member v n shown = .ok found → found = tree v one
  value : ∀ one, WellFormed one → ∀ shown, visible? one = some shown → ∀ found,
    value v n shown = .ok found → found = tree v one

/-- Only a tag has a path of its own. -/
theorem element_of_pathOf {child : Markup} {path : String} (h : pathOf child = some path) :
    ∃ name selfClosing attributes children,
      child = .element name selfClosing attributes children := by
  cases child with
  | element name selfClosing attributes children =>
      exact ⟨name, selfClosing, attributes, children, rfl⟩
  | _ => simp [pathOf] at h

theorem trees_filter (v : Vocabulary) (p : Markup → Bool) (values : List Markup) :
    trees v (values.filter p) = (trees v values).filter fun part => p part.1 := by
  induction values with
  | nil => rfl
  | cons one rest ih =>
      by_cases hone : p one = true
      · rw [List.filter_cons_of_pos hone, trees, trees, ih]
        cases tree v one with
        | none => rfl
        | some value => simp [hone]
      · rw [List.filter_cons_of_neg hone, trees, ih]
        cases tree v one with
        | none => rfl
        | some value => simp [hone]

theorem placed_eq_ok {v : Vocabulary} {n : Nat} (hn : RendersTrees v n) {children : List Markup}
    (hchildren : ∀ child ∈ children, WellFormed child) {entries : List (String × Value)}
    (h : renderedPlaced v n children = .ok entries) :
    entries = placedEntries (trees v children) := by
  rcases bind_eq_ok h with ⟨placed, hplaced, h⟩
  have hfold := (placedFrom_eq_ok hplaced).2
  have hentries : entries =
      placed.map fun entry => (entry.1, (tree v entry.2).getD (.text "")) := by
    rw [← List.filterMap_eq_map]
    refine collect_eq_ok h fun part hpart found hfound => ?_
    rcases part with ⟨path, child⟩
    -- What was placed is a child with a path, so it is a tag and can be seen.
    rw [hfold] at hpart
    rcases mem_assignAll hpart with hpart | hpart
    · simp at hpart
    · rcases List.mem_filterMap.mp hpart with ⟨other, hother, hpair⟩
      rcases Option.map_eq_some_iff.mp hpair with ⟨path', hpath, hpair⟩
      rw [Prod.mk.injEq] at hpair
      rcases hpair with ⟨rfl, rfl⟩
      rcases element_of_pathOf hpath with ⟨name, selfClosing, attributes, inner, rfl⟩
      rcases bind_eq_ok hfound with ⟨rendered, hrendered, hfound⟩
      rw [hn.value _ (hchildren _ hother) _ rfl rendered hrendered] at hfound
      exact (Except.ok.inj hfound).symm
  -- Rendering the children that were placed is placing the children's trees.
  rw [hentries, hfold, map_assignAll fun child => (tree v child).getD (.text ""), placedEntries,
    trees_eq, List.filterMap_filterMap, List.map_filterMap]
  congr 1
  refine List.filterMap_congr fun child _ => ?_
  cases hpath : pathOf child with
  | none =>
      cases tree v child <;> simp [hpath]
  | some path =>
      rcases element_of_pathOf hpath with ⟨name, selfClosing, attributes, inner, rfl⟩
      simp [tree, hpath]

theorem content_eq_ok {v : Vocabulary} {n : Nat} (hn : RendersTrees v n)
    {attributes children : List Markup} (hchildren : ∀ child ∈ children, WellFormed child)
    (hpaths : ∀ child ∈ children, (ownPath? child).isNone = (pathOf child).isNone)
    {entries : List (String × Value)}
    (h : renderedContent v n (directive? childrenDirective attributes) children = .ok entries) :
    entries = contentEntries v attributes children (trees v children) := by
  have hcontent : contentChildren children = children.filter fun child => (pathOf child).isNone :=
    List.filter_congr hpaths
  -- Whether there is content depends on the children, also on those not seen.
  have hempty : (contentChildren children).isEmpty =
      children.all fun child => (pathOf child).isSome := by
    rw [hcontent, Bool.eq_iff_iff]
    simp [Option.isSome_iff_ne_none]
  rw [contentEntries, ← hempty]
  rw [renderedContent] at h
  by_cases hnone : (contentChildren children).isEmpty = true
  · rw [if_pos hnone] at h ⊢
    exact (Except.ok.inj h).symm
  · rw [if_neg hnone] at h ⊢
    rcases map_eq_ok h with ⟨inner, hinner, rfl⟩
    have hmembers : ∀ child ∈ contentChildren children, WellFormed child := fun child hchild =>
      hchildren child (List.mem_filter.mp hchild).1
    rw [hn.siblings _ hmembers inner hinner, hcontent, trees_filter, childrenDirective]

theorem element_eq_ok {v : Vocabulary} {n : Nat} (hn : RendersTrees v n) {name : String}
    {selfClosing : Bool} {attributes children : List Markup}
    (hone : WellFormed (.element name selfClosing attributes children)) {found : Option Value}
    (h : value v (n + 1) (.element name selfClosing attributes children) = .ok found) :
    found = tree v (.element name selfClosing attributes children) := by
  rcases hone with ⟨-, hattributes, -, hinner⟩
  have hchildren := wellFormed_of_mem hinner
  rw [value_element] at h
  rcases bind_eq_ok h with ⟨⟨rendered, property⟩, hprepared, h⟩
  rcases prepared_eq_ok hprepared with ⟨rfl, rfl⟩
  rcases bind_eq_ok h with ⟨fields, hfields, h⟩
  rcases bind_eq_ok h with ⟨paths, hpaths, h⟩
  rcases bind_eq_ok h with ⟨body, hbody, h⟩
  rcases bind_eq_ok hpaths with ⟨placed, hplaced, -⟩
  rw [fields_eq_ok hattributes hfields, placed_eq_ok hn hchildren hpaths,
    content_eq_ok hn hchildren (placedFrom_eq_ok hplaced).1 hbody] at h
  rw [tree_element]
  exact (Except.ok.inj h).symm

/-- Whatever the budget, a rendering gives trees. -/
theorem rendersTrees (v : Vocabulary) (n : Nat) : RendersTrees v n := by
  induction n with
  | zero =>
      refine ⟨?_, ?_, ?_⟩
      · intro values _ found h
        simp [siblings] at h
      · intro one _ shown _ found h
        simp [member] at h
      · intro one _ shown _ found h
        simp [value] at h
  | succ n ih =>
      refine ⟨?_, ?_, ?_⟩
      · intro values hvalues found h
        refine siblings_of_members hvalues (fun one hone => ?_) h
        exact ih.member one (hvalues one hone)
      · intro one hone shown hshown found h
        rw [member] at h
        exact ih.value one hone shown hshown found h
      · intro one hone shown hshown found h
        rcases visible?_eq_some hone hshown with ⟨raw, rfl, hblank, rfl⟩ | ⟨code, rfl, rfl⟩ |
          ⟨name, selfClosing, attributes, children, rfl, rfl⟩
        · rw [tree, if_neg hblank]
          exact (Except.ok.inj h).symm
        · exact (Except.ok.inj h).symm
        · exact element_eq_ok ih hone h

end Fusion

end Afx
