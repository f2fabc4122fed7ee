import Afx.Fusion.Settings
import Afx.Proofs.Tree

/-!
# Keys of Siblings

Several siblings become the members of one object, and each needs a path there.
A tag may ask for a key, and every other sibling goes by its number among those
that can be seen. Keys and numbers share the names of one object, and nothing
keeps a tag from asking for the name that another sibling gets by its number. Of
two members at one path only the later one counts, so a sibling is lost.

There is no other way to lose one. If no two tags ask for the same key, the
paths of the members differ exactly if no key is the name of a sibling that goes
by its number, and then the object keeps every member.

None of this needs markup that was read from a source. Whatever stands among the
siblings, rendering them fails or gives one member for each that can be seen.

## Main definitions

* `keyOf`, `ownKeys`: The keys that siblings ask for.
* `itemName`: The name of a sibling by its number.
* `memberKeys`: The paths of siblings in their object.
* `unkeyed`: The numbers of the siblings that go by them.

## Theorems

* `value_isSome`: Only a comment renders as nothing.
* `siblings_several`: Several siblings are the members of an object.
* `nodup_memberKeys_iff`: When the paths of siblings differ.
* `assignAll_of_nodup`: An object with different paths keeps every member.
* `join_keeps_members_iff`: When an object keeps all of its siblings.
* `join_loses_member`: A sibling that is lost.
-/

namespace Afx

namespace Fusion

open Markup

/-! ## Paths of siblings -/

/-- The key that a sibling asks for. -/
def keyOf : Markup → Option String
  | .element _ _ attributes _ => directive? "@key" attributes
  | _ => none

/-- The keys that siblings ask for. -/
def ownKeys (values : List Markup) : List String :=
  values.filterMap keyOf

/-- The name of a sibling by its number. -/
def itemName (number : Nat) : String :=
  "item_" ++ toString number

/-- The paths of siblings in their object, where the first has the given number. -/
def memberKeys (start : Nat) (shown : List Markup) : List String :=
  (shown.zipIdx start).map fun (one, number) => memberKey number one

/-- The numbers of the siblings that go by them, where the first sibling has the
    given number. -/
def unkeyed (start : Nat) : List Markup → List Nat
  | [] => []
  | one :: rest =>
    if (keyOf one).isNone then start :: unkeyed (start + 1) rest else unkeyed (start + 1) rest

theorem itemName_inj {m n : Nat} : itemName m = itemName n ↔ m = n :=
  append_toString_inj

theorem memberKey_eq (number : Nat) (one : Markup) :
    memberKey number one = (keyOf one).getD (itemName number) := by
  cases one <;> rfl

theorem memberKeys_cons (start : Nat) (one : Markup) (rest : List Markup) :
    memberKeys start (one :: rest) = memberKey start one :: memberKeys (start + 1) rest :=
  rfl

theorem ownKeys_cons (one : Markup) (rest : List Markup) :
    ownKeys (one :: rest) = (keyOf one).toList ++ ownKeys rest := by
  rw [ownKeys, List.filterMap_cons]
  cases keyOf one <;> rfl

/-- A tag is seen as it is, and nothing else asks for a key. -/
theorem keyOf_shown {one shown : Markup} (h : visible? one = some shown) :
    keyOf shown = keyOf one := by
  rcases shown_cases h with rfl | ⟨raw, rfl, rfl⟩
  · rfl
  · rfl

theorem ownKeys_visible (values : List Markup) : ownKeys (visible values) = ownKeys values := by
  rw [ownKeys, visible, List.filterMap_filterMap, ownKeys]
  congr 1
  funext one
  cases hshown : visible? one with
  | none =>
      -- What cannot be seen is no tag.
      cases one with
      | element name selfClosing attributes children => simp [visible?] at hshown
      | _ => rfl
  | some shown => rw [Option.bind_some, keyOf_shown hshown]

/-! ## Paths that differ -/

theorem le_of_mem_unkeyed {start number : Nat} {shown : List Markup}
    (h : number ∈ unkeyed start shown) : start ≤ number := by
  induction shown generalizing start with
  | nil => simp [unkeyed] at h
  | cons one rest ih =>
      rw [unkeyed] at h
      by_cases hkey : (keyOf one).isNone = true
      · rw [if_pos hkey, List.mem_cons] at h
        rcases h with rfl | h
        · exact Nat.le_refl number
        · have := ih h
          omega
      · rw [if_neg hkey] at h
        have := ih h
        omega

/-- A path is a key that a sibling asks for or the name of one that goes by its
    number. -/
theorem mem_memberKeys {start : Nat} {shown : List Markup} {path : String} :
    path ∈ memberKeys start shown ↔
      path ∈ ownKeys shown ∨ ∃ number ∈ unkeyed start shown, path = itemName number := by
  induction shown generalizing start with
  | nil => simp [memberKeys, ownKeys, unkeyed]
  | cons one rest ih =>
      rw [memberKeys_cons, List.mem_cons, ih, memberKey_eq, ownKeys_cons, unkeyed]
      cases hkey : keyOf one with
      | none => simp [or_left_comm]
      | some key => simp [or_assoc]

/-- If keys differ, the paths of siblings differ exactly if no key is the name of a
    sibling that goes by its number. -/
theorem nodup_memberKeys_iff {start : Nat} {shown : List Markup} (h : (ownKeys shown).Nodup) :
    (memberKeys start shown).Nodup ↔
      ∀ number ∈ unkeyed start shown, itemName number ∉ ownKeys shown := by
  induction shown generalizing start with
  | nil => simp [memberKeys, unkeyed]
  | cons one rest ih =>
      rw [memberKeys_cons, List.nodup_cons, mem_memberKeys, memberKey_eq, unkeyed]
      rw [ownKeys_cons] at h ⊢
      cases hkey : keyOf one with
      | none =>
          rw [hkey, Option.toList_none, List.nil_append] at h
          -- The siblings behind this one have higher numbers, so only a key can clash.
          have hlater :
              ¬ ∃ number ∈ unkeyed (start + 1) rest, itemName start = itemName number := by
            rintro ⟨number, hnumber, hname⟩
            have := le_of_mem_unkeyed hnumber
            have := itemName_inj.mp hname
            omega
          simp [ih h, hlater]
      | some key =>
          -- No sibling behind this one asks for its key, so only a number can clash.
          rw [hkey, Option.toList_some, List.singleton_append, List.nodup_cons] at h
          rw [Option.getD_some, Option.isNone_some, if_neg Bool.false_ne_true, ih h.2,
            Option.toList_some, List.singleton_append]
          constructor
          · rintro ⟨hfirst, hrest⟩ number hnumber
            rw [List.mem_cons, not_or]
            refine ⟨fun hname => hfirst (Or.inr ⟨number, hnumber, hname.symm⟩), ?_⟩
            exact hrest number hnumber
          · intro hnone
            refine ⟨?_, fun number hnumber hmem =>
              hnone number hnumber (List.mem_cons_of_mem _ hmem)⟩
            rintro (hmem | ⟨number, hnumber, hname⟩)
            · exact h.1 hmem
            · exact hnone number hnumber (List.mem_cons.mpr (Or.inl hname.symm))

/-! ## Members of an object -/

/-- Only a comment renders as nothing. -/
theorem value_isSome {v : Vocabulary} {n : Nat} {one : Markup} {found : Option Value}
    (hone : ∀ content, one ≠ .comment content) (h : value v n one = .ok found) :
    found.isSome = true := by
  cases n with
  | zero => simp [value] at h
  | succ n =>
      cases one with
      | comment content => exact absurd rfl (hone content)
      | element name selfClosing attributes children =>
          rw [value_element] at h
          rcases bind_eq_ok h with ⟨found, -, h⟩
          rcases bind_eq_ok h with ⟨fields, -, h⟩
          rcases bind_eq_ok h with ⟨paths, -, h⟩
          rcases bind_eq_ok h with ⟨body, -, h⟩
          rw [← Except.ok.inj h]
          rfl
      | expression code => rw [← Except.ok.inj h]; rfl
      | literal content => rw [← Except.ok.inj h]; rfl
      | text raw => rw [← Except.ok.inj h]; rfl
      | flag set => rw [← Except.ok.inj h]; rfl
      | _ => simp [value] at h

theorem ne_comment_of_mem_visible {values : List Markup} {one : Markup} (h : one ∈ visible values)
    (content : String) : one ≠ .comment content := by
  rcases List.mem_filterMap.mp h with ⟨other, -, hshown⟩
  rcases shown_cases hshown with rfl | ⟨raw, rfl, rfl⟩
  · rintro rfl
    simp [visible?] at hshown
  · simp

/-- If every part renders as something with a label of its own, the labels of what
    is collected are those of the parts. -/
theorem map_collect {α β γ : Type} {render : α → Except Fault (Option β)} {parts : List α}
    {entries : List β} (h : collect render parts = .ok entries) {label : β → γ} {given : α → γ}
    (hgiven : ∀ part ∈ parts, ∀ found, render part = .ok found →
      ∃ entry, found = some entry ∧ label entry = given part) :
    entries.map label = parts.map given := by
  induction parts generalizing entries with
  | nil =>
      rw [collect, Except.ok.injEq] at h
      rw [← h]
      rfl
  | cons part rest ih =>
      rw [collect] at h
      cases hpart : render part with
      | error fault =>
          rw [hpart] at h
          simp at h
      | ok found =>
          rcases hgiven part (by simp) found hpart with ⟨entry, rfl, hlabel⟩
          rw [hpart] at h
          rcases map_eq_ok h with ⟨others, hothers, rfl⟩
          have hrest := ih hothers fun other hother =>
            hgiven other (List.mem_cons_of_mem _ hother)
          rw [List.map_cons, List.map_cons, hlabel, hrest]

/-- Several siblings become the members of an object, one for each that can be seen. -/
theorem siblings_several {v : Vocabulary} {n : Nat} {values : List Markup} {found : Value}
    (hseveral : 2 ≤ (visible values).length) (h : siblings v n values = .ok found) :
    ∃ entries, found = .object v.join entries ∧
      entries.map Prod.fst = memberKeys 1 (visible values) := by
  cases n with
  | zero => simp [siblings] at h
  | succ n =>
      rw [siblings] at h
      have hseen := @ne_comment_of_mem_visible values
      generalize visible values = shown at h hseveral hseen ⊢
      rcases shown with _ | ⟨first, _ | ⟨second, rest⟩⟩
      · simp at hseveral
      · simp at hseveral
      · rcases bind_eq_ok h with ⟨entries, hentries, hfound⟩
        refine ⟨entries, (Except.ok.inj hfound).symm, map_collect hentries ?_⟩
        rintro ⟨one, number⟩ hone found hrender
        rcases bind_eq_ok hrender with ⟨path, hpath, hrender⟩
        rcases bind_eq_ok hrender with ⟨rendered, hrendered, hrender⟩
        -- No sibling that can be seen renders as nothing, so each gets its member.
        have hsome : rendered.isSome = true := by
          cases n with
          | zero => simp [member] at hrendered
          | succ n =>
              rw [member] at hrendered
              exact value_isSome (hseen (List.fst_mem_of_mem_zipIdx hone)) hrendered
        rcases Option.isSome_iff_exists.mp hsome with ⟨inner, rfl⟩
        exact ⟨(path, inner), (Except.ok.inj hrender).symm, memberPath_eq_ok hpath⟩

/-! ## Members that are kept -/

theorem assign_of_not_mem {α β : Type} [BEq α] [LawfulBEq α] {key : α} (value : β)
    {entries : List (α × β)} (h : key ∉ entries.map Prod.fst) :
    assign key value entries = entries ++ [(key, value)] := by
  induction entries with
  | nil => rfl
  | cons entry rest ih =>
      rcases entry with ⟨other, old⟩
      rw [List.map_cons, List.mem_cons, not_or] at h
      rw [assign, if_neg (by simpa using fun hkey => h.1 hkey.symm), ih h.2, List.cons_append]

/-- Where paths differ, every member is kept, behind those that are there before. -/
theorem assignAll_of_nodup {α β : Type} [BEq α] [LawfulBEq α] {entries placed : List (α × β)}
    (h : ((placed ++ entries).map Prod.fst).Nodup) :
    assignAll entries placed = placed ++ entries := by
  induction entries generalizing placed with
  | nil => exact (List.append_nil placed).symm
  | cons entry rest ih =>
      rcases entry with ⟨key, value⟩
      have hnew : key ∉ placed.map Prod.fst := by
        intro hmem
        rw [List.map_append, List.nodup_append] at h
        exact h.2.2 key hmem key (by simp) rfl
      have hnext := @ih (placed ++ [(key, value)]) (by simpa using h)
      rw [List.append_assoc, List.singleton_append] at hnext
      rw [← hnext, assignAll, List.foldl_cons, assign_of_not_mem value hnew]
      rfl

/-- Siblings of which no two ask for the same key, and of which several can be seen,
    become an object with a member for each. The paths of the members differ exactly if
    no key is the name of a sibling that goes by its number, and members with different
    paths are all kept. -/
theorem join_keeps_members_iff {v : Vocabulary} {n : Nat} {values : List Markup} {found : Value}
    (hkeys : (ownKeys values).Nodup) (hseveral : 2 ≤ (visible values).length)
    (h : siblings v n values = .ok found) :
    ∃ entries, found = .object v.join entries ∧
      entries.map Prod.fst = memberKeys 1 (visible values) ∧
      ((entries.map Prod.fst).Nodup ↔
        ∀ number ∈ unkeyed 1 (visible values), itemName number ∉ ownKeys values) ∧
      ((entries.map Prod.fst).Nodup → assignAll entries [] = entries) := by
  rcases siblings_several hseveral h with ⟨entries, hfound, hpaths⟩
  refine ⟨entries, hfound, hpaths, ?_, fun hnodup => ?_⟩
  · rw [hpaths, ← ownKeys_visible] at *
    exact nodup_memberKeys_iff hkeys
  · exact assignAll_of_nodup hnodup

/-- Tags that ask for each other's numbers, with a comment and a text between them. -/
theorem join_keeps_members_iff_swapped :
    ∃ entries, siblings ({} : Settings).vocabulary budget
        [.element "a" true [.prop "@key" (.literal "item_3")] [], .comment "c", .text " x\n",
          .element "b" true [.prop "@key" (.literal "item_1")] []] =
      .ok (.object "Neos.Fusion:Join" entries) ∧
      entries.map Prod.fst = ["item_3", "item_2", "item_1"] ∧ assignAll entries [] = entries := by
  have hkeys : (ownKeys
      [.element "a" true [.prop "@key" (.literal "item_3")] [], .comment "c", .text " x\n",
        .element "b" true [.prop "@key" (.literal "item_1")] []]).Nodup := by
    decide
  have hseveral : 2 ≤ (visible
      [.element "a" true [.prop "@key" (.literal "item_3")] [], .comment "c", .text " x\n",
        .element "b" true [.prop "@key" (.literal "item_1")] []]).length := by
    decide
  rcases join_keeps_members_iff hkeys hseveral (v := ({} : Settings).vocabulary) (n := budget) rfl
    with ⟨entries, hfound, hpaths, hiff, hkept⟩
  exact ⟨entries, congrArg Except.ok hfound, hpaths, hkept (hiff.mpr (by decide))⟩

/-- No two tags ask for the same key, and still a sibling is lost: the tag asks for the
    name that the text behind it gets by its number. -/
theorem join_loses_member :
    read "<a @key='item_2'/>b".toList =
      .ok [.element "a" true [.prop "@key" (.literal "item_2")] [], .text "b"] ∧
    (ownKeys [.element "a" true [.prop "@key" (.literal "item_2")] [], .text "b"]).Nodup ∧
    ∃ entries, siblings ({} : Settings).vocabulary budget
        [.element "a" true [.prop "@key" (.literal "item_2")] [], .text "b"] =
      .ok (.object "Neos.Fusion:Join" entries) ∧
      entries.map Prod.fst = ["item_2", "item_2"] ∧
      assignAll entries [] = [("item_2", .text "b")] :=
  ⟨rfl, by decide, _, rfl, rfl, rfl⟩

end Fusion

end Afx
