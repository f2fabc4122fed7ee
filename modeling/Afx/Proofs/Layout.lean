import Afx.Fusion.Conversion
import Afx.Proofs.Tree
import Mathlib.Data.List.Forall2

/-!
# Layout Is Not Rendered

Authors indent markup, break its lines and put comments into it. Two sources that
differ only in this are meant to give the same Fusion, and here is what "only in
this" means and that it is so.

Layout is a run of blanks with a line feed in it. `SameWords` relates texts that
have the same characters but for layout, where each has some layout of its own.
`SameUpToLayout` relates lists of siblings, at any depth: texts with the same
words, and comments and texts of nothing but layout on one side only. One thing
such a filler can do is give a tag content that it does not have without, and an
empty content is not the same as none. So the children of a tag have content on
both sides or on neither.

The relation is not one between values. A filler has no partner, and what is left
of two lists without their fillers is related value by value: `SeenAlike`. Rendering
starts by leaving the fillers out, which is where the one relation becomes the
other, and inside of a tag it goes back. Both are carried through rendering
together, by induction on the budget.

## Main definitions

* `Markup.IsLayout`: A run of blanks with a line feed.
* `Markup.SameWords`: Texts that differ in layout only.
* `HasContent`: Children of which some have no path of their own.
* `SameUpToLayout`: Siblings that differ in layout only.
* `SeenAlike`: Values that differ in the layout inside of them only.
* `SameRendering`: A budget with which layout is not rendered.

## Theorems

* `Markup.normalise_of_sameWords`: Layout is not part of a text.
* `Markup.normalise_of_line`, `Markup.not_mem_normalise`: A text on one line has none, and
  without it every text is on one line.
* `forall₂_visible`: What can be seen differs value by value.
* `collect_of_forall₂`: Parts that render alike are collected alike.
* `sameRendering`: Whatever the budget, layout is not rendered.
* `generate_of_sameUpToLayout`: The Fusion of siblings does not depend on layout.
-/

namespace Afx

namespace Markup

/-! ## Texts -/

/-- A run of blanks with a line feed among them. -/
def IsLayout (run : List Char) : Prop :=
  Blanks run ∧ '\n' ∈ run

/-- Texts with the same characters, except that layout stands for layout. The runs
    need not be maximal: a part of a run with a line feed in it is replaced by
    replacing the run. -/
inductive SameWords : List Char → List Char → Prop where
  | nil : SameWords [] []
  | char (c : Char) {s t : List Char} (h : SameWords s t) : SameWords (c :: s) (c :: t)
  | layout {u w s t : List Char} (hu : IsLayout u) (hw : IsLayout w) (h : SameWords s t) :
      SameWords (u ++ s) (w ++ t)

/-- Runs that are held back alike: equal ones, or two with a line feed. -/
def SettleAlike (run other : List Char) : Prop :=
  run = other ∨ '\n' ∈ run ∧ '\n' ∈ other

theorem settle_of_settleAlike {run other : List Char} (h : SettleAlike run other)
    (atEdge : Bool) : settle atEdge run = settle atEdge other := by
  rcases h with rfl | ⟨hrun, hother⟩
  · rfl
  · rw [settle, settle, if_pos (List.contains_iff_mem.mpr hrun),
      if_pos (List.contains_iff_mem.mpr hother)]

theorem foldl_settleNext_blanks {w : List Char} (hw : Blanks w) (kept run : List Char) :
    w.foldl settleNext (kept, run) = (kept, w.reverse ++ run) := by
  induction w generalizing run with
  | nil => rfl
  | cons c w ih =>
      rw [List.foldl_cons, settleNext, if_pos (hw c (by simp)),
        ih fun d hd => hw d (List.mem_cons_of_mem _ hd)]
      simp

/-- Layout that is replaced changes the run that is held back, but not how it settles,
    and so nothing that is kept. -/
theorem foldl_settleNext_sameWords {s t : List Char} (h : SameWords s t) (kept : List Char)
    {run other : List Char} (hrun : SettleAlike run other) :
    (s.foldl settleNext (kept, run)).1 = (t.foldl settleNext (kept, other)).1 ∧
      SettleAlike (s.foldl settleNext (kept, run)).2 (t.foldl settleNext (kept, other)).2 := by
  induction h generalizing kept run other with
  | nil => exact ⟨rfl, hrun⟩
  | char c h ih =>
      rw [List.foldl_cons, List.foldl_cons, settleNext, settleNext]
      by_cases hc : Text.isBlank c = true
      · -- One more blank joins both runs.
        rw [if_pos hc, if_pos hc]
        refine ih kept ?_
        rcases hrun with rfl | ⟨hrun, hother⟩
        · exact Or.inl rfl
        · exact Or.inr ⟨List.mem_cons_of_mem _ hrun, List.mem_cons_of_mem _ hother⟩
      · rw [if_neg hc, if_neg hc, settle_of_settleAlike hrun]
        exact ih _ (Or.inl rfl)
  | layout hu hw h ih =>
      rw [List.foldl_append, List.foldl_append, foldl_settleNext_blanks hu.1,
        foldl_settleNext_blanks hw.1]
      exact ih kept (Or.inr ⟨by simp [hu.2], by simp [hw.2]⟩)

/-- Layout is not part of a text. -/
theorem normalise_of_sameWords {raw other : String} (h : SameWords raw.toList other.toList) :
    normalise raw = normalise other := by
  rcases foldl_settleNext_sameWords h [] (Or.inl (Eq.refl [])) with ⟨hkept, hrun⟩
  simp only [normalise, normaliseChars, hkept, settle_of_settleAlike hrun]

theorem normalise_of_isLayout {raw : String} (h : IsLayout raw.toList) : normalise raw = "" := by
  have hrun : '\n' ∈ raw.toList.reverse ++ [] := by simpa using h.2
  simp only [normalise, normaliseChars, foldl_settleNext_blanks h.1, settle,
    List.contains_iff_mem.mpr hrun, if_true]
  rfl

theorem settle_of_not_mem {run : List Char} (h : '\n' ∉ run) (atEdge : Bool) :
    settle atEdge run = run := by
  simp [settle, h]

theorem not_mem_settle (atEdge : Bool) (run : List Char) : '\n' ∉ settle atEdge run := by
  unfold settle
  by_cases h : '\n' ∈ run
  · cases atEdge <;> simp [h]
  · simp [h]

/-- On one line no run is layout, so all characters are kept or held back. -/
theorem foldl_settleNext_line {s : List Char} (hs : '\n' ∉ s) (kept : List Char)
    {run : List Char} (hrun : '\n' ∉ run) :
    '\n' ∉ (s.foldl settleNext (kept, run)).2 ∧
      (s.foldl settleNext (kept, run)).2 ++ (s.foldl settleNext (kept, run)).1 =
        s.reverse ++ (run ++ kept) := by
  induction s generalizing kept run with
  | nil => exact ⟨hrun, rfl⟩
  | cons c s ih =>
      rw [List.mem_cons, not_or] at hs
      rw [List.foldl_cons, settleNext]
      by_cases hc : Text.isBlank c = true
      · rw [if_pos hc]
        have hlonger : '\n' ∉ c :: run := by simp [hs.1, hrun]
        rcases ih hs.2 kept hlonger with ⟨hheld, hall⟩
        exact ⟨hheld, by simpa using hall⟩
      · rw [if_neg hc, settle_of_not_mem hrun]
        rcases ih hs.2 (c :: run ++ kept) List.not_mem_nil with ⟨hheld, hall⟩
        exact ⟨hheld, by simpa using hall⟩

/-- A text on one line has no layout. -/
theorem normalise_of_line {raw : String} (h : '\n' ∉ raw.toList) : normalise raw = raw := by
  rcases foldl_settleNext_line h [] List.not_mem_nil with ⟨hheld, hall⟩
  simp only [normalise, normaliseChars, settle_of_not_mem hheld, hall]
  simp

theorem not_mem_foldl_settleNext (s : List Char) {kept : List Char} (hkept : '\n' ∉ kept)
    (run : List Char) : '\n' ∉ (s.foldl settleNext (kept, run)).1 := by
  induction s generalizing kept run with
  | nil => exact hkept
  | cons c s ih =>
      rw [List.foldl_cons, settleNext]
      by_cases hc : Text.isBlank c = true
      · rw [if_pos hc]
        exact ih hkept _
      · -- A character that settles the run before it is no blank, and so no line feed.
        have hline : c ≠ '\n' := by
          rintro rfl
          exact hc (by decide)
        rw [if_neg hc]
        refine ih ?_ []
        simp [hline.symm, not_mem_settle, hkept]

/-- What is left of a text is on one line. -/
theorem not_mem_normalise (raw : String) : '\n' ∉ (normalise raw).toList := by
  have hkept := not_mem_foldl_settleNext raw.toList List.not_mem_nil []
  rw [normalise, normaliseChars]
  simp [not_mem_settle, hkept]

end Markup

namespace Fusion

open Markup

/-! ## Siblings -/

/-- Some of the children have no path of their own. -/
def HasContent (children : List Markup) : Prop :=
  ∃ child ∈ children, ¬ AsksPath child

/-- What may stand among siblings for the sake of authors alone: a comment, or a text of
    layout. -/
def IsFiller : Markup → Prop
  | .comment _ => True
  | .text raw => IsLayout raw.toList
  | _ => False

/-- Siblings that differ in layout only, in their own list and in those below. -/
inductive SameUpToLayout : List Markup → List Markup → Prop where
  | nil : SameUpToLayout [] []
  | same (one : Markup) {values others : List Markup} (h : SameUpToLayout values others) :
      SameUpToLayout (one :: values) (one :: others)
  | text {raw other : String} {values others : List Markup}
      (hraw : SameWords raw.toList other.toList) (h : SameUpToLayout values others) :
      SameUpToLayout (.text raw :: values) (.text other :: others)
  | element (name : String) (selfClosing : Bool) (attributes : List Markup)
      {children inner values others : List Markup} (hchildren : SameUpToLayout children inner)
      (hcontent : HasContent children ↔ HasContent inner) (h : SameUpToLayout values others) :
      SameUpToLayout (.element name selfClosing attributes children :: values)
        (.element name selfClosing attributes inner :: others)
  | fillerLeft {one : Markup} {values others : List Markup} (hone : IsFiller one)
      (h : SameUpToLayout values others) : SameUpToLayout (one :: values) others
  | fillerRight {one : Markup} {values others : List Markup} (hone : IsFiller one)
      (h : SameUpToLayout values others) : SameUpToLayout values (one :: others)

/-- Values that differ in the layout inside of them only. -/
inductive SeenAlike : Markup → Markup → Prop where
  | same (one : Markup) : SeenAlike one one
  | element (name : String) (selfClosing : Bool) (attributes : List Markup)
      {children inner : List Markup} (hchildren : SameUpToLayout children inner)
      (hcontent : HasContent children ↔ HasContent inner) :
      SeenAlike (.element name selfClosing attributes children)
        (.element name selfClosing attributes inner)

theorem visible?_filler {one : Markup} (h : IsFiller one) : visible? one = none := by
  cases one with
  | comment content => rfl
  | text raw => rw [visible?, normalise_of_isLayout h]; rfl
  | _ => exact False.elim h

theorem ownPath?_filler {one : Markup} (h : IsFiller one) : ownPath? one = none := by
  cases one with
  | element name selfClosing attributes children => exact False.elim h
  | _ => rfl

/-- What can be seen differs value by value: fillers cannot be seen, and texts with the
    same words are seen as the same. -/
theorem forall₂_visible {values others : List Markup} (h : SameUpToLayout values others) :
    List.Forall₂ SeenAlike (visible values) (visible others) := by
  induction h with
  | nil => exact .nil
  | same one h ih =>
      rw [visible, visible, List.filterMap_cons, List.filterMap_cons]
      cases visible? one with
      | none => exact ih
      | some shown => exact .cons (.same shown) ih
  | @text raw other values others hraw h ih =>
      have hsame : visible? (.text raw) = visible? (.text other) := by
        rw [visible?, visible?, normalise_of_sameWords hraw]
      rw [visible, visible, List.filterMap_cons, List.filterMap_cons, hsame]
      cases visible? (.text other) with
      | none => exact ih
      | some shown => exact .cons (.same shown) ih
  | element name selfClosing attributes hchildren hcontent h ihchildren ih =>
      exact .cons (.element name selfClosing attributes hchildren hcontent) ih
  | fillerLeft hone h ih =>
      rw [visible, List.filterMap_cons_none (visible?_filler hone)]
      exact ih
  | fillerRight hone h ih =>
      rw [visible, visible, List.filterMap_cons_none (visible?_filler hone)]
      exact ih

theorem takesLines_of_forall₂ {shown others : List Markup}
    (h : List.Forall₂ SeenAlike shown others) : takesLines shown = takesLines others := by
  cases h with
  | nil => rfl
  | cons hfirst hrest =>
      cases hrest with
      | nil =>
          cases hfirst with
          | same one => rfl
          | element name selfClosing attributes hchildren hcontent => rfl
      | cons hsecond hrest => cases hfirst <;> cases hsecond <;> simp [takesLines]

theorem ownPath?_of_seenAlike {one other : Markup} (h : SeenAlike one other) :
    ownPath? one = ownPath? other := by
  cases h with
  | same one => rfl
  | element name selfClosing attributes hchildren hcontent => rfl

theorem memberPath_of_seenAlike {one other : Markup} (h : SeenAlike one other) (number : Nat) :
    memberPath number one = memberPath number other := by
  cases h with
  | same one => rfl
  | element name selfClosing attributes hchildren hcontent => rfl

/-! ## Children -/

theorem contentChildren_cons_of_some {child : Markup} {path : Except Fault String}
    (h : ownPath? child = some path) (rest : List Markup) :
    contentChildren (child :: rest) = contentChildren rest := by
  rw [contentChildren, List.filter_cons_of_neg (by simp [h]), contentChildren]

theorem contentChildren_cons_of_none {child : Markup} (h : ownPath? child = none)
    (rest : List Markup) : contentChildren (child :: rest) = child :: contentChildren rest := by
  rw [contentChildren, List.filter_cons_of_pos (by simp [h]), contentChildren]

/-- The children without a path of their own differ in layout only. -/
theorem contentChildren_sameUpToLayout {children inner : List Markup}
    (h : SameUpToLayout children inner) :
    SameUpToLayout (contentChildren children) (contentChildren inner) := by
  induction h with
  | nil => exact .nil
  | same one h ih =>
      cases hpath : ownPath? one with
      | none =>
          rw [contentChildren_cons_of_none hpath, contentChildren_cons_of_none hpath]
          exact .same one ih
      | some path =>
          rw [contentChildren_cons_of_some hpath, contentChildren_cons_of_some hpath]
          exact ih
  | text hraw h ih => exact .text hraw ih
  | @element name selfClosing attributes children inner values others hchildren hcontent h
      ihchildren ih =>
      -- Both tags have the same attributes, and so the same path or none.
      have hsame := ownPath?_of_seenAlike (.element name selfClosing attributes hchildren hcontent)
      cases hpath : ownPath? (.element name selfClosing attributes children) with
      | none =>
          rw [contentChildren_cons_of_none hpath,
            contentChildren_cons_of_none (hsame.symm.trans hpath)]
          exact .element name selfClosing attributes hchildren hcontent ih
      | some path =>
          rw [contentChildren_cons_of_some hpath,
            contentChildren_cons_of_some (hsame.symm.trans hpath)]
          exact ih
  | fillerLeft hone h ih =>
      rw [contentChildren_cons_of_none (ownPath?_filler hone)]
      exact .fillerLeft hone ih
  | fillerRight hone h ih =>
      rw [contentChildren_cons_of_none (ownPath?_filler hone)]
      exact .fillerRight hone ih

theorem isEmpty_contentChildren_iff {children : List Markup} :
    (contentChildren children).isEmpty = true ↔ ¬ HasContent children := by
  rw [contentChildren, List.isEmpty_iff, List.filter_eq_nil_iff, HasContent, not_exists]
  refine forall_congr' fun child => ?_
  rw [Option.isNone_iff_eq_none, ownPath?_eq_none_iff, not_and]

/-- Children at the same paths, which differ in layout only. -/
def PlacedAlike (placed others : List (String × Markup)) : Prop :=
  List.Forall₂ (fun entry other => entry.1 = other.1 ∧ SeenAlike entry.2 other.2) placed others

theorem assign_placedAlike {placed others : List (String × Markup)} (h : PlacedAlike placed others)
    (path : String) {child other : Markup} (hchild : SeenAlike child other) :
    PlacedAlike (assign path child placed) (assign path other others) := by
  induction h with
  | nil => exact .cons ⟨rfl, hchild⟩ .nil
  | @cons entry entry' placed others hentry hrest ih =>
      rcases entry with ⟨key, old⟩
      rcases entry' with ⟨key', old'⟩
      rcases hentry with ⟨hkey, hold⟩
      simp only at hkey hold
      subst hkey
      rw [assign, assign]
      by_cases hpath : (key == path) = true
      · rw [if_pos hpath, if_pos hpath]
        exact .cons ⟨rfl, hchild⟩ hrest
      · rw [if_neg hpath, if_neg hpath]
        exact .cons ⟨rfl, hold⟩ ih

/-- Results that are the same fault, or are related by `R`. -/
def SameOutcome {α β : Type} (R : α → β → Prop) : Except Fault α → Except Fault β → Prop
  | .ok result, .ok other => R result other
  | .error fault, .error other => fault = other
  | _, _ => False

theorem bind_of_sameOutcome {α β γ : Type} {R : α → β → Prop} {x : Except Fault α}
    {y : Except Fault β} (h : SameOutcome R x y) {f : α → Except Fault γ} {g : β → Except Fault γ}
    (hfg : ∀ a b, R a b → f a = g b) : (x >>= f) = y >>= g := by
  cases x with
  | error fault =>
      cases y with
      | error other => exact congrArg Except.error h
      | ok b => exact False.elim h
  | ok a =>
      cases y with
      | error other => exact False.elim h
      | ok b => exact hfg a b h

/-- Placing children fails with the same fault on both sides, or puts alike children at the
    same paths. -/
theorem placedFrom_sameUpToLayout {children inner : List Markup}
    (h : SameUpToLayout children inner) {placed others : List (String × Markup)}
    (hplaced : PlacedAlike placed others) :
    SameOutcome PlacedAlike (placedFrom placed children) (placedFrom others inner) := by
  have hfiller : ∀ {one rest placed}, IsFiller one →
      placedFrom placed (one :: rest) = placedFrom placed rest := by
    intro one rest placed hone
    rw [placedFrom, ownPath?_filler hone]
  -- One child on each side, after which the lists differ in layout only.
  have hstep : ∀ {child other : Markup} {rest rest' : List Markup}, SeenAlike child other →
      (∀ {placed others}, PlacedAlike placed others →
        SameOutcome PlacedAlike (placedFrom placed rest) (placedFrom others rest')) →
      ∀ {placed others}, PlacedAlike placed others →
        SameOutcome PlacedAlike (placedFrom placed (child :: rest))
          (placedFrom others (other :: rest')) := by
    intro child other rest rest' hchild hrest placed others hplaced
    rw [placedFrom, placedFrom, ownPath?_of_seenAlike hchild]
    match ownPath? other with
    | none => exact hrest hplaced
    | some (.ok path) => exact hrest (assign_placedAlike hplaced path hchild)
    | some (.error fault) => exact rfl
  induction h generalizing placed others with
  | nil => exact hplaced
  | same one h ih => exact hstep (.same one) ih hplaced
  | text hraw h ih => exact ih hplaced
  | element name selfClosing attributes hchildren hcontent h ihchildren ih =>
      exact hstep (.element name selfClosing attributes hchildren hcontent) ih hplaced
  | fillerLeft hone h ih =>
      rw [hfiller hone]
      exact ih hplaced
  | fillerRight hone h ih =>
      rw [hfiller hone]
      exact ih hplaced

/-! ## Rendering -/

/-- Parts that render alike, one by one, are collected alike. -/
theorem collect_of_forall₂ {α α' β : Type} {render : α → Except Fault (Option β)}
    {render' : α' → Except Fault (Option β)} {parts : List α} {parts' : List α'}
    (h : List.Forall₂ (fun part part' => render part = render' part') parts parts') :
    collect render parts = collect render' parts' := by
  induction h with
  | nil => rfl
  | cons hpart hrest ih => rw [collect, collect, hpart, ih]

theorem forall₂_zipIdx {α β : Type} {R : α → β → Prop} {parts : List α} {others : List β}
    (h : List.Forall₂ R parts others) (start : Nat) :
    List.Forall₂ (fun part other => R part.1 other.1 ∧ part.2 = other.2) (parts.zipIdx start)
      (others.zipIdx start) := by
  induction h generalizing start with
  | nil => exact .nil
  | cons hpart hrest ih => exact .cons ⟨hpart, rfl⟩ (ih (start + 1))

/-- With this budget, layout is not rendered. -/
structure SameRendering (v : Vocabulary) (n : Nat) : Prop where
  siblings : ∀ {values others}, SameUpToLayout values others →
    siblings v n values = siblings v n others
  member : ∀ {one other}, SeenAlike one other → member v n one = member v n other
  value : ∀ {one other}, SeenAlike one other → value v n one = value v n other

theorem siblings_of_members_alike {v : Vocabulary} {n : Nat} (hn : SameRendering v n)
    {values others : List Markup} (h : SameUpToLayout values others) :
    siblings v (n + 1) values = siblings v (n + 1) others := by
  have hshown := forall₂_visible h
  rw [siblings, siblings]
  -- Both lists show equally many siblings, so the results have the same form.
  generalize visible values = shown at hshown ⊢
  generalize visible others = shown' at hshown ⊢
  rcases hshown with _ | ⟨hfirst, _ | ⟨hsecond, hrest⟩⟩
  · rfl
  · simp only [hn.member hfirst]
  · have hparts := forall₂_zipIdx (.cons hfirst (.cons hsecond hrest)) 1
    refine congrArg (· >>= _) (collect_of_forall₂ (hparts.imp ?_))
    rintro ⟨one, number⟩ ⟨other, _⟩ ⟨hone, rfl⟩
    simp only [memberPath_of_seenAlike hone, hn.member hone]

theorem renderedPlaced_of_sameUpToLayout {v : Vocabulary} {n : Nat} (hn : SameRendering v n)
    {children inner : List Markup} (h : SameUpToLayout children inner) :
    renderedPlaced v n children = renderedPlaced v n inner := by
  refine bind_of_sameOutcome (placedFrom_sameUpToLayout h .nil) fun placed others hplaced => ?_
  refine collect_of_forall₂ (hplaced.imp ?_)
  rintro ⟨path, child⟩ ⟨_, other⟩ ⟨rfl, hchild⟩
  simp only [hn.value hchild]

theorem renderedContent_of_sameUpToLayout {v : Vocabulary} {n : Nat} (hn : SameRendering v n)
    (property : Option String) {children inner : List Markup} (h : SameUpToLayout children inner)
    (hcontent : HasContent children ↔ HasContent inner) :
    renderedContent v n property children = renderedContent v n property inner := by
  have hempty : (contentChildren children).isEmpty = (contentChildren inner).isEmpty := by
    rw [Bool.eq_iff_iff, isEmpty_contentChildren_iff, isEmpty_contentChildren_iff, hcontent]
  rw [renderedContent, renderedContent, hempty, hn.siblings (contentChildren_sameUpToLayout h)]

/-- Whatever the budget, layout is not rendered. -/
theorem sameRendering (v : Vocabulary) (n : Nat) : SameRendering v n := by
  induction n with
  | zero =>
      exact ⟨fun _ => by rw [siblings, siblings], fun _ => by rw [member, member],
        fun _ => by rw [value, value]⟩
  | succ n ih =>
      refine ⟨siblings_of_members_alike ih, fun h => ?_, fun h => ?_⟩
      · rw [member, member, ih.value h]
      · cases h with
        | same one => rfl
        | element name selfClosing attributes hchildren hcontent =>
            rw [value_element, value_element, renderedPlaced_of_sameUpToLayout ih hchildren]
            simp only [renderedContent_of_sameUpToLayout ih _ hchildren hcontent]

/-- Siblings that differ in layout only have the same Fusion, or the same fault, at every
    indentation and with all settings. -/
theorem generate_of_sameUpToLayout {values others : List Markup} (h : SameUpToLayout values others)
    (s : Settings) (base : Datum) : s.generate base values = s.generate base others := by
  rw [Settings.generate, Settings.generate, takesLines_of_forall₂ (forall₂_visible h),
    (sameRendering s.vocabulary budget).siblings h]

/-- A tag with its content on one line, and the same tag laid out over several lines. -/
theorem generate_of_sameUpToLayout_indented :
    ({} : Settings).generate (.text "  ")
        [.element "p" false []
          [.text "a\n\tb", .element "i" true [.prop "@path" (.literal "x")] []]] =
      ({} : Settings).generate (.text "  ")
        [.comment "c", .element "p" false []
          [.text "\n  ", .text "a \n b", .comment "",
            .element "i" true [.prop "@path" (.literal "x")] [], .text "\n"], .text " \n"] := by
  have hcomment : ∀ content, IsFiller (.comment content) := fun _ => trivial
  have hlayout : ∀ run : String, run.toList.all Text.isBlank = true → '\n' ∈ run.toList →
      IsLayout run.toList := fun run hall hmem => ⟨by simpa [Blanks] using hall, hmem⟩
  have hwords : SameWords "a\n\tb".toList "a \n b".toList :=
    .char 'a' (.layout (hlayout "\n\t" (by decide) (by decide))
      (hlayout " \n " (by decide) (by decide)) (.char 'b' .nil))
  have hlast : IsFiller (.text " \n") := hlayout " \n" (by decide) (by decide)
  refine generate_of_sameUpToLayout (.fillerRight (hcomment "c")
    (.element "p" false [] ?_ ?_ (.fillerRight hlast .nil))) _ _
  · have hfirst : IsFiller (.text "\n  ") := hlayout "\n  " (by decide) (by decide)
    have hend : IsFiller (.text "\n") := hlayout "\n" (by decide) (by decide)
    exact .fillerRight hfirst (.text hwords
      (.fillerRight (hcomment "") (.same _ (.fillerRight hend .nil))))
  · -- Both tags have a text, which has no path.
    exact ⟨fun _ => ⟨.text "a \n b", by simp, id⟩, fun _ => ⟨.text "a\n\tb", by simp, id⟩⟩

end Fusion

end Afx
