import Afx.Proofs.Interleaving
import Afx.Proofs.Totality

/-!
# Children With and Without a Path

A tag has children of two kinds. Some ask for a path of their own, where they
stand by themselves; the others are rendered together as the content. The two
kinds may be mixed in any way, and one walk over all children looks at paths and
reports the first that is no text. Yet only the children that ask for a path have
anything to report, and the content is rendered after all of them. So it does not
matter how the two kinds are mixed, for the Fusion of a tag and for its fault.

What there is to say about a tag that renders can therefore be said of each kind
by itself. Several children may ask for the same path: it has one entry, at the
place of the first of them and with the value of the last. The content has one
entry behind these, and none if there is no content at all.

## Main definitions

* `RendersChildren`: The entries of children of the two kinds.

## Theorems

* `placedFrom_filter`: Placing looks only at children that ask for a path.
* `value_interleaved`: The two kinds of children are rendered each by itself.
* `map_fst_assignAll`: Keys stand in the order of their first appearance.
* `mem_collect`: What is collected was rendered from a part.
* `rendersChildren_of_ok`: The entries of children whose tag renders.
* `render_eq_ok`: The text of markup that renders.
* `children_apart`: The two kinds of children do not interfere.
-/

namespace Afx

namespace Fusion

open Markup

/-! ## Both kinds of children -/

theorem isSome_ownPath?_iff {child : Markup} : (ownPath? child).isSome = true ↔ AsksPath child := by
  rw [Option.isSome_iff_ne_none, Ne, ownPath?_eq_none_iff, not_not]

/-- Placing looks only at children that ask for a path. -/
theorem placedFrom_filter (placed : List (String × Markup)) (children : List Markup) :
    placedFrom placed children =
      placedFrom placed (children.filter fun child => (ownPath? child).isSome) := by
  induction children generalizing placed with
  | nil => rfl
  | cons child rest ih =>
      cases hpath : ownPath? child with
      | none =>
          rw [placedFrom, hpath, List.filter_cons_of_neg (by simp [hpath])]
          exact ih placed
      | some path =>
          rw [placedFrom, hpath, List.filter_cons_of_pos (by simp [hpath]), placedFrom, hpath]
          cases path with
          | error fault => rfl
          | ok text => exact ih _

section Interleaving

variable {placed content children : List Markup} (h : Interleaved placed content children)
  (hplaced : ∀ child ∈ placed, AsksPath child) (hcontent : ∀ child ∈ content, ¬ AsksPath child)

include h hplaced hcontent

theorem placedChildren_interleaved : placedChildren children = placedChildren placed := by
  have hkind := h.filter_left (fun child hchild => isSome_ownPath?_iff.mpr (hplaced child hchild))
    fun child hchild => Bool.eq_false_iff.mpr (mt isSome_ownPath?_iff.mp (hcontent child hchild))
  rw [placedChildren, placedFrom_filter, hkind, placedChildren]

theorem contentChildren_interleaved : contentChildren children = content := by
  refine h.symm.filter_left (fun child hchild => ?_) fun child hchild => ?_
  · rw [Option.isNone_iff_eq_none, ownPath?_eq_none_iff]
    exact hcontent child hchild
  · rw [Bool.eq_false_iff, Ne, Option.isNone_iff_eq_none, ownPath?_eq_none_iff, not_not]
    exact hplaced child hchild

/-- The two kinds of children are rendered each by itself. -/
theorem value_interleaved (v : Vocabulary) (n : Nat) (name : String) (selfClosing : Bool)
    (attributes : List Markup) :
    value v n (.element name selfClosing attributes children) =
      value v n (.element name selfClosing attributes (placed ++ content)) := by
  have happend := Interleaved.append placed content
  cases n with
  | zero => rw [value, value]
  | succ n =>
      rw [value_element, value_element]
      simp only [renderedPlaced, renderedContent, placedChildren_interleaved h hplaced hcontent,
        contentChildren_interleaved h hplaced hcontent,
        placedChildren_interleaved happend hplaced hcontent,
        contentChildren_interleaved happend hplaced hcontent]

end Interleaving

/-! ## Entries of children -/

/-- Keys stand in the order of their first appearance, each once. -/
theorem map_fst_assignAll {α β : Type} [BEq α] [LawfulBEq α] (entries : List (α × β)) :
    (assignAll entries []).map Prod.fst = (entries.map Prod.fst).eraseDups := by
  induction entries using List.reverseRecOn with
  | nil => rfl
  | append_singleton entries last ih =>
      have hlast : assignAll (entries ++ [last]) [] =
          assign last.1 last.2 (assignAll entries []) := List.foldl_append
      rw [hlast, map_fst_assign, ih, List.map_append, List.eraseDups_append]
      -- A key is new to the list without repetitions iff it is new to the list.
      by_cases hkey : last.1 ∈ entries.map Prod.fst
      · rw [if_pos (List.contains_iff_mem.mpr (List.mem_eraseDups.mpr hkey))]
        simp [List.removeAll, hkey]
      · rw [if_neg (mt (fun h => List.mem_eraseDups.mp (List.contains_iff_mem.mp h)) hkey)]
        simp [List.removeAll, List.eraseDups_cons, hkey]

theorem mem_collect {α β : Type} {render : α → Except Fault (Option β)} {parts : List α}
    {entries : List β} (h : collect render parts = .ok entries) {entry : β}
    (hentry : entry ∈ entries) :
    ∃ part ∈ parts, render part = .ok (some entry) := by
  induction parts generalizing entries with
  | nil =>
      rw [collect, Except.ok.injEq] at h
      rw [← h] at hentry
      simp at hentry
  | cons part rest ih =>
      rw [collect] at h
      cases hpart : render part with
      | error fault =>
          rw [hpart] at h
          simp at h
      | ok found =>
          rw [hpart] at h
          cases found with
          | none =>
              rcases ih h hentry with ⟨other, hother, hrender⟩
              exact ⟨other, List.mem_cons_of_mem _ hother, hrender⟩
          | some first =>
              rcases map_eq_ok h with ⟨others, hothers, rfl⟩
              rcases List.mem_cons.mp hentry with rfl | hentry
              · exact ⟨part, List.mem_cons_self, hpart⟩
              · rcases ih hothers hentry with ⟨other, hother, hrender⟩
                exact ⟨other, List.mem_cons_of_mem _ hother, hrender⟩

/-- The entries of children: those that ask for a path have one for each path, at the place of
    the first and with the value of the last of them, and all others have one together. -/
structure RendersChildren (v : Vocabulary) (n : Nat) (property : String)
    (placed content : List Markup) (paths body : List (String × Value)) : Prop where
  asked : ∀ child ∈ placed, ∃ path, pathOf child = some path
  order : paths.map Prod.fst = (placed.filterMap pathOf).eraseDups
  last : ∀ entry ∈ paths, ∃ child,
    (placed.filter fun other => pathOf other == some entry.1).getLast? = some child ∧
      value v n child = .ok (some entry.2)
  absent : content = [] → body = []
  present : content ≠ [] → ∃ inner, siblings v n content = .ok inner ∧ body = [(property, inner)]

theorem renderedPlaced_eq_ok {v : Vocabulary} {n : Nat} {placed : List Markup}
    {paths : List (String × Value)} (h : renderedPlaced v n placed = .ok paths) :
    (∀ child ∈ placed, (ownPath? child).isNone = (pathOf child).isNone) ∧
      paths.map Prod.fst = (placed.filterMap pathOf).eraseDups ∧
      ∀ entry ∈ paths, ∃ child,
        (placed.filter fun other => pathOf other == some entry.1).getLast? = some child ∧
          value v n child = .ok (some entry.2) := by
  rcases bind_eq_ok h with ⟨entries, hentries, h⟩
  rcases placedFrom_eq_ok hentries with ⟨hpaths, hfold⟩
  refine ⟨hpaths, ?_, fun entry hentry => ?_⟩
  · have horder : entries.map Prod.fst = (placed.filterMap pathOf).eraseDups := by
      rw [hfold, map_fst_assignAll, List.map_filterMap]
      simp [Function.comp_def]
    rw [← horder]
    refine map_collect h fun part hpart found hfound => ?_
    rcases bind_eq_ok hfound with ⟨rendered, hrendered, hfound⟩
    -- What was placed is a tag, so it is rendered as something.
    have hlast := (mem_placedChildren_iff hentries part.1 part.2).mp hpart
    have hpath := (List.mem_filter.mp (List.mem_of_getLast? hlast)).2
    rcases element_of_pathOf (eq_of_beq hpath) with ⟨name, selfClosing, attributes, inner, hchild⟩
    have hsome := value_isSome (by simp [hchild]) hrendered
    rcases Option.isSome_iff_exists.mp hsome with ⟨shown, rfl⟩
    exact ⟨(part.1, shown), (Except.ok.inj hfound).symm, rfl⟩
  · rcases mem_collect h hentry with ⟨⟨path, child⟩, hpart, hrender⟩
    rcases bind_eq_ok hrender with ⟨rendered, hrendered, hrender⟩
    rcases Option.map_eq_some_iff.mp (Except.ok.inj hrender) with ⟨inner, rfl, rfl⟩
    exact ⟨child, (mem_placedChildren_iff hentries path child).mp hpart, hrendered⟩

/-- The entries of children of two kinds, if their tag renders. -/
theorem rendersChildren_of_ok {v : Vocabulary} {n : Nat} {name : String} {selfClosing : Bool}
    {attributes placed content children : List Markup} (h : Interleaved placed content children)
    (hplaced : ∀ child ∈ placed, AsksPath child) (hcontent : ∀ child ∈ content, ¬ AsksPath child)
    {found : Option Value}
    (hfound : value v (n + 1) (.element name selfClosing attributes children) = .ok found) :
    ∃ head paths body,
      value v (n + 1) (.element name selfClosing attributes []) =
        .ok (some (.object (v.prototype name) head)) ∧
      RendersChildren v n ((directive? childrenDirective attributes).getD v.children)
        placed content paths body ∧
      found = some (.object (v.prototype name) (head ++ paths ++ body)) := by
  rw [value_element] at hfound
  rcases bind_eq_ok hfound with ⟨⟨rendered, property⟩, hprepared, hfound⟩
  rcases bind_eq_ok hfound with ⟨fields, hfields, hfound⟩
  rcases bind_eq_ok hfound with ⟨paths, hpaths, hfound⟩
  rcases bind_eq_ok hfound with ⟨body, hbody, hfound⟩
  refine ⟨introduction name selfClosing ++ fields, paths, body, ?_, ?_,
    (Except.ok.inj hfound).symm⟩
  · rw [value_element, hprepared]
    change (collect _ (numbered 1 rendered) >>= _) = _
    rw [hfields, renderedPlaced_nil, renderedContent_nil]
    simp [bind, Except.bind, pure, Except.pure]
  · rw [renderedPlaced, placedChildren_interleaved h hplaced hcontent, ← renderedPlaced] at hpaths
    rw [renderedContent, contentChildren_interleaved h hplaced hcontent,
      (prepared_eq_ok hprepared).2] at hbody
    rcases renderedPlaced_eq_ok hpaths with ⟨hnone, horder, hlast⟩
    refine ⟨fun child hchild => ?_, horder, hlast, fun hempty => ?_, fun hempty => ?_⟩
    · rw [← Option.isSome_iff_exists, ← Option.not_isNone, ← hnone child hchild,
        Option.not_isNone]
      exact isSome_ownPath?_iff.mpr (hplaced child hchild)
    · rw [hempty] at hbody
      exact (Except.ok.inj hbody).symm
    · rw [if_neg (by simpa using hempty)] at hbody
      rcases map_eq_ok hbody with ⟨inner, hinner, rfl⟩
      exact ⟨inner, hinner, rfl⟩

/-! ## The text of a tag -/

theorem Indentation.guarding_eq_ok {α : Type} {i : Indentation} {nested : Bool}
    {rendered : Except Fault α} {found : α} (h : i.guarding nested rendered = .ok found) :
    rendered = .ok found := by
  unfold guarding at h
  split at h
  · simp at h
  · cases rendered with
    | error fault => simp [Except.mapError] at h
    | ok value => simpa [Except.mapError] using h

theorem Indentation.write_eq_ok {i : Indentation} {rendered : Value} {text : String}
    (h : i.write rendered = .ok text) : text = rendered.layout i.margin 0 := by
  rw [write] at h
  split at h
  · exact (Except.ok.inj h).symm
  · simp at h

/-- The text of markup that renders is its value, laid out. -/
theorem render_eq_ok {s : Settings} {base : Datum} {one : Markup} {text : String}
    (h : s.render base one = .ok (some text)) :
    ∃ found, value s.vocabulary budget one = .ok (some found) ∧
      text = found.layout (Indentation.mk base s.indentation).margin 0 := by
  rcases bind_eq_ok h with ⟨found, hfound, h⟩
  cases found with
  | none => simp at h
  | some found =>
      refine ⟨found, Indentation.guarding_eq_ok hfound, ?_⟩
      rcases map_eq_ok h with ⟨written, hwritten, hsome⟩
      rw [← Option.some.inj hsome]
      exact Indentation.write_eq_ok hwritten

/-- The two kinds of children do not interfere. A tag renders in the same way, or fails with the
    same failure, however its children with a path of their own and its other children are mixed.
    If it renders, the children stand behind all that the tag has without them, first those with
    a path and then the content. -/
theorem children_apart (s : Settings) (base : Datum) (name : String) (selfClosing : Bool)
    (attributes : List Markup) {placed content children : List Markup}
    (h : Interleaved placed content children) (hplaced : ∀ child ∈ placed, AsksPath child)
    (hcontent : ∀ child ∈ content, ¬ AsksPath child) :
    s.render base (.element name selfClosing attributes children) =
        s.render base (.element name selfClosing attributes (placed ++ content)) ∧
      ∀ text, s.render base (.element name selfClosing attributes children) = .ok (some text) →
        ∃ head paths body,
          value s.vocabulary budget (.element name selfClosing attributes []) =
            .ok (some (.object (s.vocabulary.prototype name) head)) ∧
          RendersChildren s.vocabulary (budget - 1)
            ((directive? childrenDirective attributes).getD s.vocabulary.children)
            placed content paths body ∧
          text = (Value.object (s.vocabulary.prototype name) (head ++ paths ++ body)).layout
            (Indentation.mk base s.indentation).margin 0 := by
  constructor
  · simp only [Settings.render, takesLines, value_interleaved h hplaced hcontent]
  · intro text htext
    rcases render_eq_ok htext with ⟨found, hfound, rfl⟩
    rcases rendersChildren_of_ok h hplaced hcontent hfound with
      ⟨head, paths, body, hhead, hchildren, hobject⟩
    rw [Option.some.injEq] at hobject
    exact ⟨head, paths, body, hhead, hchildren, by rw [hobject]⟩

/-- Two tags that ask for one path, with text before and between them: the second tag stands at
    the path, and the text is the content. -/
theorem children_apart_slots :
    let slot (name : String) : Markup := .element name true [.prop "@path" (.literal "slot")] []
    let mixed : Markup := .element "p" false [] [.text "x", slot "a", .text "y", slot "b"]
    let sorted : Markup := .element "p" false [] [slot "a", slot "b", .text "x", .text "y"]
    let written := "Neos.Fusion:Tag \x7b\n    tagName = 'p'\n" ++
      "    slot = Neos.Fusion:Tag \x7b\n        tagName = 'b'\n" ++
      "        selfClosingTag = true\n    \x7d\n    content = Neos.Fusion:Join \x7b\n" ++
      "        item_1 = 'x'\n        item_2 = 'y'\n    \x7d\n\x7d"
    (∀ child ∈ [slot "a", slot "b"], AsksPath child) ∧
      (∀ child ∈ [Markup.text "x", .text "y"], ¬ AsksPath child) ∧
      ({} : Settings).render (.text "") mixed = ({} : Settings).render (.text "") sorted ∧
      ({} : Settings).render (.text "") mixed = .ok (some written) ∧
      ∃ paths body, RendersChildren ({} : Settings).vocabulary (budget - 1) "content"
        [slot "a", slot "b"] [.text "x", .text "y"] paths body := by
  intro slot mixed sorted written
  have hplaced : ∀ child ∈ [slot "a", slot "b"], AsksPath child := by
    simp [slot, AsksPath]
  have hcontent : ∀ child ∈ [Markup.text "x", .text "y"], ¬ AsksPath child := by
    simp [AsksPath]
  rcases children_apart {} (.text "") "p" false [] (.right (.left (.right (.left .nil)))) hplaced
    hcontent with ⟨hsame, hrenders⟩
  have htext : ({} : Settings).render (.text "") mixed = .ok (some written) := by
    decide +kernel
  rcases hrenders _ htext with ⟨-, paths, body, -, hchildren, -⟩
  exact ⟨hplaced, hcontent, hsame, htext, paths, body, hchildren⟩

end Fusion

end Afx
