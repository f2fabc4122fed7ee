import Afx.Proofs.Scanners
import Afx.Proofs.Tree

/-!
# What a Tree Is Made Of

The tree that markup stands for is put together from few kinds of pieces. Its
objects and paths are called by names: those of tags and props, which are
read as names, those of the vocabulary, and names that are built from them. Only
the texts of directives are taken as they are. Its code is the code of the
markup, in the same words. Texts and truth values are its leaves, and a text is a
literal, the name of a tag, or what is left of a text between tags.

So whatever holds of names in general and of the texts of directives holds of
every name in a tree, and whatever holds of the code or the texts of markup holds
of those in its tree. All are carried along together, since they go through the
same rules. What they are good for depends on what reads the tree: a grammar asks
for names that can be told apart, the check of a document for code that leaves
it as it was, and a margin for pieces that are on one line.

## Main definitions

* `directiveTexts`, `directiveTextsAll`: The texts of all directives.
* `literals`, `literalsAll`: The content of all literals.
* `MadeOf`: A value whose names, texts and code meet given conditions.
* `Vocabulary.Named`: The names of a vocabulary are names.
* `Vocabulary.Suits`: Conditions that hold of all that a tree adds to its markup.
* `Supplies`: An attribute that has a source, with texts and code that meet conditions.

## Theorems

* `mem_literalsAll_of_directive`: The texts of directives are literals.
* `values_rendered`: Preparing attributes keeps what does not depend on their names.
* `madeOf_attributeEntries`: The entries of attributes.
* `madeOf_joined`: The value of siblings.
* `madeOf_trees`: The trees of markup are made of its names and its code.
-/

namespace Afx

namespace Fusion

open Markup

/-! ## Directives -/

/-- The text of an attribute that is a directive with one. -/
def directiveText? : Markup → Option String
  | .prop name (.literal content) => if isDirective name then some content else none
  | _ => none

mutual

/-- The texts of all directives in a value. -/
def directiveTexts : Markup → List String
  | .element _ _ attributes children =>
    attributes.filterMap directiveText? ++ directiveTextsAll children
  | _ => []

/-- The texts of all directives in a list of values. -/
def directiveTextsAll : List Markup → List String
  | [] => []
  | value :: rest => directiveTexts value ++ directiveTextsAll rest

end

/-- A directive with a text is a prop with a literal. -/
theorem mem_of_directive? {name content : String} {attributes : List Markup}
    (h : directive? name attributes = some content) :
    .prop name (.literal content) ∈ attributes := by
  unfold directive? lastProp? at h
  rcases Option.bind_eq_some_iff.mp h with ⟨value, hvalue, hcontent⟩
  have hliteral : value = .literal content := by
    cases value <;> simp_all [textOf?]
  rcases List.mem_filterMap.mp (List.mem_of_getLast? hvalue) with ⟨attr, hattr, hname⟩
  have hprop : attr = .prop name value := by
    cases attr <;> simp_all [valueOf?]
  rwa [hprop, hliteral] at hattr

theorem mem_directiveTexts {name content : String} (hname : isDirective name = true)
    {attributes : List Markup} (h : directive? name attributes = some content) :
    content ∈ attributes.filterMap directiveText? := by
  refine List.mem_filterMap.mpr ⟨_, mem_of_directive? h, ?_⟩
  rw [directiveText?, if_pos hname]

mutual

/-- The content of all literals in a value. -/
def literals : Markup → List String
  | .literal content => [content]
  | .prop _ value => literals value
  | .spread value => literals value
  | .element _ _ attributes children => literalsAll attributes ++ literalsAll children
  | _ => []

/-- The content of all literals in a list of values. -/
def literalsAll : List Markup → List String
  | [] => []
  | value :: rest => literals value ++ literalsAll rest

end

theorem mem_literalsAll {content : String} {values : List Markup} :
    content ∈ literalsAll values ↔ ∃ value ∈ values, content ∈ literals value := by
  induction values with
  | nil => simp [literalsAll]
  | cons value rest ih => simp [literalsAll, ih]

theorem mem_literals_of_directive {attr : Markup} {content : String}
    (h : directiveText? attr = some content) : content ∈ literals attr := by
  fun_cases directiveText? attr with
  | case1 name text hname => simp_all [directiveText?, literals]
  | case2 name text hname => simp [directiveText?, hname] at h
  | case3 _ hother => simp [directiveText?] at h

/-- The texts of directives are literals. -/
theorem mem_literalsAll_of_directive {values : List Markup} {content : String}
    (h : content ∈ directiveTextsAll values) : content ∈ literalsAll values := by
  induction values using siblings_induction with
  | hnil => simp [directiveTextsAll] at h
  | hcons one rest ihchildren ihrest =>
      rw [literalsAll, List.mem_append]
      rcases List.mem_append.mp h with h | h
      · refine Or.inl ?_
        cases one with
        | element name selfClosing attributes children =>
            rw [literals, List.mem_append]
            rcases List.mem_append.mp h with h | h
            · rcases List.mem_filterMap.mp h with ⟨attr, hattr, htext⟩
              exact Or.inl (mem_literalsAll.mpr ⟨attr, hattr, mem_literals_of_directive htext⟩)
            · exact Or.inr (ihchildren name selfClosing attributes children rfl h)
        | _ => simp [directiveTexts] at h
      · exact Or.inr (ihrest h)

/-! ## Values by their pieces -/

mutual

/-- The names and paths of a value meet `P`, its texts meet `T`, and its code meets `C`. -/
def MadeOf (P T C : String → Prop) : Value → Prop
  | .text content => T content
  | .expression code => C code
  | .boolean _ => True
  | .object name entries => P name ∧ EntriesMadeOf P T C entries

/-- The same for each entry of an object. -/
def EntriesMadeOf (P T C : String → Prop) : List (String × Value) → Prop
  | [] => True
  | (path, value) :: rest => P path ∧ MadeOf P T C value ∧ EntriesMadeOf P T C rest

end

theorem entriesMadeOf_iff {P T C : String → Prop} (entries : List (String × Value)) :
    EntriesMadeOf P T C entries ↔ ∀ entry ∈ entries, P entry.1 ∧ MadeOf P T C entry.2 := by
  induction entries with
  | nil => simp [EntriesMadeOf]
  | cons entry rest ih => simp [EntriesMadeOf, ih, and_assoc]

/-- The names of a vocabulary are names. -/
structure Vocabulary.Named (v : Vocabulary) : Prop where
  tag : IsName v.tag.toList
  join : IsName v.join.toList
  dataStructure : IsName v.dataStructure.toList
  children : IsName v.children.toList

/-- Names and those of the vocabulary meet `P`, and what a tree has for texts that are no
    literals meets `T`: the names of tags, and what is left of texts between tags. -/
structure Vocabulary.Suits (v : Vocabulary) (P T : String → Prop) : Prop where
  name : ∀ name : String, IsName name.toList → P name
  tag : P v.tag
  join : P v.join
  dataStructure : P v.dataStructure
  children : P v.children
  tagName : ∀ name : String, IsName name.toList → T name
  shown : ∀ raw, T (normalise raw)

/-- A vocabulary of names suits what holds of names, if texts may be any. -/
theorem Vocabulary.Named.suits {v : Vocabulary} (hv : v.Named) {P : String → Prop}
    (hP : ∀ name : String, IsName name.toList → P name) : v.Suits P fun _ => True where
  name := hP
  tag := hP _ hv.tag
  join := hP _ hv.join
  dataStructure := hP _ hv.dataStructure
  children := hP _ hv.children
  tagName := fun _ _ => trivial
  shown := fun _ => trivial

/-! ## Names that are built -/

theorem isName_scoped (name : String) {path : String} (h : IsName path.toList) :
    IsName (scope name ++ path).toList := by
  unfold scope
  by_cases hname : isPrototype name = true
  · rw [if_pos hname, String.toList_append]
    exact h
  · rw [if_neg hname, String.toList_append]
    exact isName_append (by decide) h

theorem isName_applyPath (name : String) (number : Nat) :
    IsName (applyPath (scope name) number).toList := by
  rw [applyPath, String.append_assoc]
  refine isName_scoped name ?_
  rw [String.toList_append]
  exact isName_append (by decide) (isName_toString number)

theorem prototype_meets {v : Vocabulary} {P T : String → Prop} (hv : v.Suits P T) {name : String}
    (h : IsName name.toList) : P (v.prototype name) := by
  unfold Vocabulary.prototype
  by_cases hname : isPrototype name = true
  · rw [if_pos hname]
    exact hv.name name h
  · rw [if_neg hname]
    exact hv.tag

/-! ## Entries of attributes -/

/-- An attribute that has a source, and whose literals and code meet conditions. -/
def Supplies (T C : String → Prop) (attr : Markup) : Prop :=
  WellFormedAttribute attr ∧ (∀ content ∈ literals attr, T content) ∧ ∀ code ∈ codes attr, C code

/-- Numbering a shorthand keeps what does not depend on the name of a prop. -/
theorem values_expandedFrom {α : Type} {f : Markup → α}
    (hf : ∀ name other value, f (.prop name value) = f (.prop other value))
    {seen : List String} {attributes : List Markup} {attr : Markup}
    (h : attr ∈ expandedFrom seen attributes) : ∃ other ∈ attributes, f attr = f other := by
  fun_induction expandedFrom seen attributes with
  | case1 => simp at h
  | case2 seen name value rest full ih =>
      rcases List.mem_cons.mp h with rfl | h
      · exact ⟨.prop name value, List.mem_cons_self, hf _ _ value⟩
      · rcases ih h with ⟨other, hother, hsame⟩
        exact ⟨other, List.mem_cons_of_mem _ hother, hsame⟩
  | case3 seen first rest hfirst ih =>
      rcases List.mem_cons.mp h with rfl | h
      · exact ⟨attr, List.mem_cons_self, rfl⟩
      · rcases ih h with ⟨other, hother, hsame⟩
        exact ⟨other, List.mem_cons_of_mem _ hother, hsame⟩

theorem values_rendered {α : Type} {f : Markup → α}
    (hf : ∀ name other value, f (.prop name value) = f (.prop other value))
    {attributes : List Markup} {attr : Markup} (h : attr ∈ renderedAttributes attributes) :
    ∃ other ∈ attributes, f attr = f other := by
  rcases values_expandedFrom hf h with ⟨other, hother, hsame⟩
  exact ⟨other, (List.mem_filter.mp hother).1, hsame⟩

section Entries

variable {P T C : String → Prop} {v : Vocabulary}

/-- Preparing attributes keeps what they supply. -/
theorem supplies_rendered {attributes : List Markup} (h : ∀ attr ∈ attributes, Supplies T C attr) :
    ∀ attr ∈ renderedAttributes attributes, Supplies T C attr := by
  intro attr hattr
  refine ⟨wellFormedAttribute_rendered (fun other hother => (h other hother).1) attr hattr, ?_, ?_⟩
  · rcases values_rendered (f := literals) (fun _ _ _ => by rw [literals, literals]) hattr with
      ⟨other, hother, hliterals⟩
    rw [hliterals]
    exact (h other hother).2.1
  · rcases values_rendered (f := codes) (fun _ _ _ => by rw [codes, codes]) hattr with
      ⟨other, hother, hcodes⟩
    rw [hcodes]
    exact (h other hother).2.2

theorem madeOf_leaf {name : String} {value : Markup} (h : Supplies T C (.prop name value)) :
    MadeOf P T C (leaf value) := by
  rcases h with ⟨hread, hliterals, hcodes⟩
  rcases wellFormedProp_cases hread with ⟨-, rfl | ⟨content, rfl⟩ | ⟨code, rfl, -⟩⟩
  · trivial
  · exact hliterals content (by simp [literals])
  · exact hcodes code (by simp [codes])

theorem madeOf_propEntries {path : String → String}
    (hpath : ∀ name : String, IsName name.toList → P (path name)) {attributes : List Markup}
    (h : ∀ attr ∈ attributes, Supplies T C attr) :
    ∀ entry ∈ propEntries path (leading attributes), P entry.1 ∧ MadeOf P T C entry.2 := by
  intro entry hentry
  rcases List.mem_map.mp hentry with ⟨prop, hprop, rfl⟩
  have hread := h _ (mem_leading hprop)
  exact ⟨hpath _ (wellFormedProp_cases hread.1).1, madeOf_leaf hread⟩

variable (hv : v.Suits P T)

include hv

theorem madeOf_mergedEntries (name : String) (number : Nat) {attributes : List Markup}
    (h : ∀ attr ∈ attributes, Supplies T C attr) :
    ∀ entry ∈ mergedEntries v (scope name) number attributes,
      P entry.1 ∧ MadeOf P T C entry.2 := by
  induction attributes generalizing number with
  | nil => simp [mergedEntries]
  | cons attr rest ih =>
      have hattr := h attr (by simp)
      have hrest : ∀ attr ∈ rest, Supplies T C attr := fun attr hattr =>
        h attr (List.mem_cons_of_mem _ hattr)
      rcases wellFormedAttribute_cases hattr.1 with ⟨_, _, rfl⟩ | ⟨code, rfl, -⟩
      · exact ih number hrest
      · intro entry hentry
        rw [mergedEntries, List.mem_cons] at hentry
        rcases hentry with rfl | hentry
        · exact ⟨hv.name _ (isName_applyPath name number), hattr.2.2 code (by simp [codes])⟩
        · by_cases hnone : (leading rest).isEmpty = true
          · rw [if_pos hnone] at hentry
            exact ih _ hrest entry hentry
          · rw [if_neg hnone, List.mem_cons] at hentry
            rcases hentry with rfl | hentry
            · have hprops := madeOf_propEntries hv.name hrest
              exact ⟨hv.name _ (isName_applyPath name _), hv.dataStructure,
                (entriesMadeOf_iff _).mpr hprops⟩
            · exact ih _ hrest entry hentry

theorem madeOf_attributeEntries (name : String) {attributes : List Markup}
    (h : ∀ attr ∈ attributes, Supplies T C attr) :
    ∀ entry ∈ attributeEntries v name attributes, P entry.1 ∧ MadeOf P T C entry.2 := by
  have hrendered := supplies_rendered h
  intro entry hentry
  rw [attributeEntries, List.mem_append, List.mem_append] at hentry
  rcases hentry with (hentry | hentry) | hentry
  · have hpath : ∀ path : String, IsName path.toList → P (scope name ++ path) :=
      fun _ hpath => hv.name _ (isName_scoped name hpath)
    exact madeOf_propEntries hpath hrendered entry hentry
  · exact madeOf_mergedEntries hv name 1 hrendered entry hentry
  · rcases List.mem_filterMap.mp hentry with ⟨attr, hattr, hmeta⟩
    have hread := hrendered attr hattr
    rcases wellFormedAttribute_cases hread.1 with ⟨other, value, rfl⟩ | ⟨code, rfl, -⟩
    · rw [metaField?] at hmeta
      by_cases hname : isMeta other = true
      · rw [if_pos hname, Option.some.injEq] at hmeta
        rw [← hmeta]
        exact ⟨hv.name _ (wellFormedProp_cases hread.1).1, madeOf_leaf hread⟩
      · simp [hname] at hmeta
    · simp [metaField?] at hmeta

theorem madeOf_introduction {name : String} (h : IsName name.toList) (selfClosing : Bool) :
    ∀ entry ∈ introduction name selfClosing, P entry.1 ∧ MadeOf P T C entry.2 := by
  have htag : P "tagName" := hv.name _ (by decide)
  have hself : P "selfClosingTag" := hv.name _ (by decide)
  have hname := hv.tagName name h
  unfold introduction
  by_cases hprototype : isPrototype name = true
  · simp [hprototype]
  · cases selfClosing <;> simp [hprototype, MadeOf, htag, hself, hname]

/-! ## Trees -/

/-- The number of a sibling makes a name, and its key is the text of a directive. -/
theorem memberKey_meets (number : Nat) {one : Markup} (h : ∀ text ∈ directiveTexts one, P text) :
    P (memberKey number one) := by
  have hitem : P ("item_" ++ toString number) := by
    refine hv.name _ ?_
    rw [String.toList_append]
    exact isName_append (by decide) (isName_toString number)
  cases one with
  | element name selfClosing attributes children =>
      rw [memberKey]
      cases hkey : directive? "@key" attributes with
      | none => exact hitem
      | some key => exact h key (List.mem_append_left _ (mem_directiveTexts (by decide) hkey))
  | _ => exact hitem

omit hv in
theorem pathOf_meets {child : Markup} (h : ∀ text ∈ directiveTexts child, P text) {path : String}
    (hpath : pathOf child = some path) : P path := by
  rcases element_of_pathOf hpath with ⟨name, selfClosing, attributes, children, rfl⟩
  exact h path (List.mem_append_left _ (mem_directiveTexts (by decide) hpath))

/-- A sibling whose directives have texts that meet `P`, with a value that is made of
    `P`, `T` and `C`. -/
def PartMadeOf (P T C : String → Prop) (part : Markup × Value) : Prop :=
  (∀ text ∈ directiveTexts part.1, P text) ∧ MadeOf P T C part.2

theorem madeOf_joined {parts : List (Markup × Value)}
    (h : ∀ part ∈ parts, PartMadeOf P T C part) : MadeOf P T C (joined v parts) := by
  rcases parts with _ | ⟨first, _ | ⟨second, rest⟩⟩
  · exact hv.shown ""
  · exact (h first (by simp)).2
  · refine ⟨hv.join, (entriesMadeOf_iff _).mpr fun entry hentry => ?_⟩
    rcases List.mem_map.mp hentry with ⟨⟨part, number⟩, hpart, rfl⟩
    rcases h part (List.fst_mem_of_mem_zipIdx hpart) with ⟨htexts, hvalue⟩
    exact ⟨memberKey_meets hv number htexts, hvalue⟩

omit hv in
theorem madeOf_placedEntries {parts : List (Markup × Value)}
    (h : ∀ part ∈ parts, PartMadeOf P T C part) :
    ∀ entry ∈ placedEntries parts, P entry.1 ∧ MadeOf P T C entry.2 := by
  intro entry hentry
  rcases mem_assignAll hentry with hentry | hentry
  · simp at hentry
  · rcases List.mem_filterMap.mp hentry with ⟨part, hpart, hplaced⟩
    rcases Option.map_eq_some_iff.mp hplaced with ⟨path, hpath, rfl⟩
    exact ⟨pathOf_meets (h part hpart).1 hpath, (h part hpart).2⟩

theorem madeOf_contentEntries {attributes : List Markup}
    (htexts : ∀ text ∈ attributes.filterMap directiveText?, P text) (children : List Markup)
    {parts : List (Markup × Value)} (h : ∀ part ∈ parts, PartMadeOf P T C part) :
    ∀ entry ∈ contentEntries v attributes children parts, P entry.1 ∧ MadeOf P T C entry.2 := by
  intro entry hentry
  unfold contentEntries at hentry
  by_cases hnone : children.all (fun child => (pathOf child).isSome) = true
  · simp [hnone] at hentry
  · rw [if_neg hnone, List.mem_singleton] at hentry
    subst hentry
    -- The entry is at the path that a directive names, or else the default one.
    refine ⟨?_, madeOf_joined hv fun part hpart => h part (List.mem_filter.mp hpart).1⟩
    cases hproperty : directive? "@children" attributes with
    | none => exact hv.children
    | some property => exact htexts property (mem_directiveTexts (by decide) hproperty)

/-- A tag is made of its pieces if its children are. -/
theorem madeOf_element {name : String} {selfClosing : Bool} {attributes children : List Markup}
    (hname : IsName name.toList) (hattributes : ∀ attr ∈ attributes, Supplies T C attr)
    (htexts : ∀ text ∈ attributes.filterMap directiveText?, P text)
    (hparts : ∀ part ∈ trees v children, PartMadeOf P T C part) {found : Value}
    (h : tree v (.element name selfClosing attributes children) = some found) :
    MadeOf P T C found := by
  rw [tree_element, Option.some.injEq] at h
  rw [← h]
  refine ⟨prototype_meets hv hname, (entriesMadeOf_iff _).mpr fun entry hentry => ?_⟩
  rw [List.mem_append, List.mem_append, List.mem_append] at hentry
  rcases hentry with ((hentry | hentry) | hentry) | hentry
  · exact madeOf_introduction hv hname selfClosing entry hentry
  · exact madeOf_attributeEntries hv name hattributes entry hentry
  · exact madeOf_placedEntries hparts entry hentry
  · exact madeOf_contentEntries hv htexts children hparts entry hentry

/-- The trees of markup with a source are made of names, of the texts of its directives,
    of its texts and of its code. -/
theorem madeOf_trees (values : List Markup) (hvalues : ∀ one ∈ values, WellFormed one)
    (htexts : ∀ text ∈ directiveTextsAll values, P text)
    (hliterals : ∀ content ∈ literalsAll values, T content)
    (hcodes : ∀ code ∈ codesAll values, C code) :
    ∀ part ∈ trees v values, PartMadeOf P T C part := by
  induction values using siblings_induction with
  | hnil => simp [trees]
  | hcons one rest ihchildren ihrest =>
      have hone := hvalues one (by simp)
      have hothers := ihrest (fun other hother => hvalues other (List.mem_cons_of_mem _ hother))
        (fun text htext => htexts text (List.mem_append_right _ htext))
        (fun content hcontent => hliterals content (List.mem_append_right _ hcontent))
        (fun code hcode => hcodes code (List.mem_append_right _ hcode))
      have honeTexts : ∀ text ∈ directiveTexts one, P text := fun text htext =>
        htexts text (List.mem_append_left _ htext)
      have honeLiterals : ∀ content ∈ literals one, T content := fun content hcontent =>
        hliterals content (List.mem_append_left _ hcontent)
      have honeCodes : ∀ code ∈ codes one, C code := fun code hcode =>
        hcodes code (List.mem_append_left _ hcode)
      -- By the kind of the first sibling; only a tag needs the hypothesis on children.
      have hfirst : ∀ found, tree v one = some found → MadeOf P T C found := by
        intro found hfound
        rcases wellFormed_cases hone with ⟨content, rfl⟩ | ⟨raw, rfl⟩ | ⟨code, rfl⟩ |
          ⟨name, selfClosing, attributes, children, rfl⟩
        · simp [tree] at hfound
        · rw [tree] at hfound
          by_cases hblank : (normalise raw == "") = true
          · simp [hblank] at hfound
          · rw [if_neg hblank, Option.some.injEq] at hfound
            rw [← hfound]
            exact hv.shown raw
        · rw [tree, Option.some.injEq] at hfound
          rw [← hfound]
          exact honeCodes code (by simp [codes])
        · rw [directiveTexts] at honeTexts
          rw [literals] at honeLiterals
          rw [codes] at honeCodes
          have hparts := ihchildren name selfClosing attributes children rfl
            (wellFormed_of_mem hone.2.2.2)
            (fun text htext => honeTexts text (List.mem_append_right _ htext))
            (fun content hcontent => honeLiterals content (List.mem_append_right _ hcontent))
            (fun code hcode => honeCodes code (List.mem_append_right _ hcode))
          have hattributes : ∀ attr ∈ attributes, Supplies T C attr := fun attr hattr =>
            ⟨hone.2.1 attr hattr, fun content hcontent => honeLiterals content
              (List.mem_append_left _ (mem_literalsAll.mpr ⟨attr, hattr, hcontent⟩)),
              fun code hcode => honeCodes code
                (List.mem_append_left _ (mem_codesAll.mpr ⟨attr, hattr, hcode⟩))⟩
          exact madeOf_element hv hone.1 hattributes
            (fun text htext => honeTexts text (List.mem_append_left _ htext)) hparts hfound
      intro part hpart
      rw [trees] at hpart
      cases hfound : tree v one with
      | none =>
          rw [hfound] at hpart
          exact hothers part hpart
      | some found =>
          rw [hfound, List.mem_cons] at hpart
          rcases hpart with rfl | hpart
          · exact ⟨honeTexts, hfirst found hfound⟩
          · exact hothers part hpart

end Entries

end Fusion

end Afx
