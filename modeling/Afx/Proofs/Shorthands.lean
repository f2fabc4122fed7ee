import Afx.Fusion.Rendering
import Afx.Markup.Document
import Afx.Proofs.Interleaving
import Mathlib.Data.List.Nodup

/-!
# Numbered Shorthands

A meta path such as `@if` may be written without a name of its own, and more than
once. It is then numbered by its occurrence: the second `@if` becomes `@if.if_2`.
What counts as its occurrences are the props with exactly its name, while whether
it is a shorthand is a matter of what stands behind its last dot, so `foo.@if` is
one as well and has numbers of its own.

Whatever is said here about numbers rests on two facts about dotted names. A
number adds one more segment, which has no dot and no at sign. So the name with
its number can be taken apart again, and two shorthands with equal numbered names
are the same occurrence of the same name. And a numbered name is neither a
shorthand nor a directive, so numbering leaves nothing to number and nothing to
take out.

Numbers do not look at names that were written out. Someone who writes `@if` and
`@if.if_1` has two props at one path, and this is the only way to get them.

## Main definitions

* `EndsIn`: A dotted name with a given last segment.
* `propNames`: The names of the props among attributes.
* `numberedAttribute`, `numberedNames`: What becomes of an attribute, and of names.

## Theorems

* `lastSegment_eq_iff`: What the last segment of a name is.
* `numberedName_inj`: Numbered names can be taken apart.
* `shorthand?_numberedName`, `isDirective_numberedName`: What a numbered name is not.
* `getElem?_expandedFrom`: Every attribute stays at its position.
* `expanded_by_occurrence`: Shorthands are numbered by their occurrence.
* `nodup_numberedNames_iff`: When numbered names differ.
* `expanded_names_differ_iff`: When props are at different paths.
* `shorthand_meets_written_name`: Two props at one path.
-/

namespace Afx

namespace Fusion

open Markup

/-! ## Dotted names -/

/-- A dotted name with this as its last segment. -/
def EndsIn (segment name : String) : Prop :=
  name = segment ∨ ∃ front, name = front ++ "." ++ segment

theorem lastSegment_of_not_mem {name : String} (h : '.' ∉ name.toList) :
    lastSegment name = name := by
  rw [lastSegment, Text.segments_of_not_mem h]
  exact String.ofList_toList

theorem lastSegment_append {segment : String} (h : '.' ∉ segment.toList) (front : String) :
    lastSegment (front ++ "." ++ segment) = segment := by
  have hlast := Text.getLast?_segments h front.toList
  have hname : (front ++ "." ++ segment).toList = front.toList ++ '.' :: segment.toList := by
    simp
  rw [lastSegment, hname, hlast]
  exact String.ofList_toList

theorem lastSegment_eq_iff {segment name : String} (h : '.' ∉ segment.toList) :
    lastSegment name = segment ↔ EndsIn segment name := by
  constructor
  · rintro rfl
    by_cases hdot : '.' ∈ name.toList
    · -- The last dot is the first from the right end.
      rcases List.eq_append_cons_of_mem (List.mem_reverse.mpr hdot) with
        ⟨last, front, hname, hlast⟩
      have hsplit : name = String.ofList front.reverse ++ "." ++ String.ofList last.reverse := by
        rw [← String.toList_inj, ← List.reverse_inj, hname]
        simp
      refine Or.inr ⟨String.ofList front.reverse, ?_⟩
      nth_rewrite 2 [hsplit]
      rw [lastSegment_append (by simpa using hlast)]
      exact hsplit
    · exact Or.inl (lastSegment_of_not_mem hdot).symm
  · rintro (rfl | ⟨front, rfl⟩)
    · exact lastSegment_of_not_mem h
    · exact lastSegment_append h front

/-- A dotted name can be taken apart at its last dot. -/
theorem dotted_inj {front front' last last' : String} (hlast : '.' ∉ last.toList)
    (hlast' : '.' ∉ last'.toList) (h : front ++ "." ++ last = front' ++ "." ++ last') :
    front = front' ∧ last = last' := by
  have hsame : last = last' := by
    rw [← lastSegment_append hlast front, h, lastSegment_append hlast']
  subst hsame
  refine ⟨?_, rfl⟩
  rw [← String.toList_inj] at h ⊢
  simpa using h

/-! ## Names with a number -/

theorem shorthand?_eq_some_iff {name word : String} :
    shorthand? name = some word ↔
      word = "if" ∧ EndsIn "@if" name ∨ word = "process" ∧ EndsIn "@process" name := by
  rw [← lastSegment_eq_iff (by decide), ← lastSegment_eq_iff (by decide), shorthand?]
  by_cases hif : lastSegment name = "@if"
  · simp [hif, eq_comm]
  · by_cases hprocess : lastSegment name = "@process"
    · simp [hprocess, eq_comm]
    · simp [hif, hprocess]

theorem shorthand?_eq_none_iff {name : String} :
    shorthand? name = none ↔ ¬ EndsIn "@if" name ∧ ¬ EndsIn "@process" name := by
  rw [Option.eq_none_iff_forall_ne_some]
  constructor
  · intro h
    exact ⟨fun hif => h "if" (shorthand?_eq_some_iff.mpr (Or.inl ⟨rfl, hif⟩)),
      fun hprocess => h "process" (shorthand?_eq_some_iff.mpr (Or.inr ⟨rfl, hprocess⟩))⟩
  · rintro ⟨hif, hprocess⟩ word hword
    rcases shorthand?_eq_some_iff.mp hword with ⟨-, h⟩ | ⟨-, h⟩
    · exact hif h
    · exact hprocess h

/-- The segment that a number adds has no dot, and no at sign in front. -/
theorem number_segment {name word : String} (h : shorthand? name = some word) (number : Nat) :
    '.' ∉ (word ++ "_" ++ toString number).toList ∧
      isMeta (word ++ "_" ++ toString number) = false := by
  have hdigits : '.' ∉ (toString number).toList := by
    intro hdot
    rw [show (toString number).toList = Nat.toDigits 10 number from Nat.toList_repr] at hdot
    exact absurd (Nat.isDigit_of_mem_toDigits (by decide) (by decide) hdot) (by decide)
  rcases shorthand?_eq_some_iff.mp h with ⟨rfl, -⟩ | ⟨rfl, -⟩
  · simpa [isMeta] using hdigits
  · simpa [isMeta] using hdigits

theorem numberedName_of_none {name : String} (h : shorthand? name = none) (before : Nat) :
    numberedName before name = name := by
  rw [numberedName, h]

theorem numberedName_of_some {name word : String} (h : shorthand? name = some word)
    (before : Nat) :
    numberedName before name = name ++ "." ++ (word ++ "_" ++ toString (before + 1)) := by
  rw [numberedName, h]
  simp only [String.append_assoc]

theorem numberedName_if {name : String} (h : EndsIn "@if" name) (before : Nat) :
    numberedName before name = name ++ ".if_" ++ toString (before + 1) := by
  rw [numberedName, shorthand?_eq_some_iff.mpr (Or.inl ⟨rfl, h⟩)]
  simp only [String.append_assoc]
  rfl

theorem numberedName_process {name : String} (h : EndsIn "@process" name) (before : Nat) :
    numberedName before name = name ++ ".process_" ++ toString (before + 1) := by
  rw [numberedName, shorthand?_eq_some_iff.mpr (Or.inr ⟨rfl, h⟩)]
  simp only [String.append_assoc]
  rfl

/-- A numbered name is no shorthand. -/
theorem shorthand?_numberedName (before : Nat) (name : String) :
    shorthand? (numberedName before name) = none := by
  cases hword : shorthand? name with
  | none => rw [numberedName_of_none hword, hword]
  | some word =>
      rcases number_segment hword (before + 1) with ⟨hdot, hmeta⟩
      have hlast := lastSegment_append hdot name
      -- Both shorthands start with an at sign, and the last segment does not.
      rw [numberedName_of_some hword, shorthand?, hlast, if_neg, if_neg]
      · intro hprocess
        rw [beq_iff_eq.mp hprocess] at hmeta
        exact absurd hmeta (by decide)
      · intro hif
        rw [beq_iff_eq.mp hif] at hmeta
        exact absurd hmeta (by decide)

/-- Shorthands with equal numbered names are the same occurrence of the same name. -/
theorem numberedName_inj {name other word word' : String} {m n : Nat}
    (hname : shorthand? name = some word) (hother : shorthand? other = some word')
    (h : numberedName m name = numberedName n other) : name = other ∧ m = n := by
  rw [numberedName_of_some hname, numberedName_of_some hother] at h
  rcases dotted_inj (number_segment hname _).1 (number_segment hother _).1 h with ⟨rfl, hnumber⟩
  rw [hname, Option.some.injEq] at hother
  subst hother
  exact ⟨rfl, Nat.succ.inj (append_toString_inj.mp hnumber)⟩

/-- A directive has a single segment, and none of them is a shorthand. -/
theorem directive_plain {name : String} (h : isDirective name = true) :
    '.' ∉ name.toList ∧ shorthand? name = none := by
  simp only [isDirective, isParentDirective, childrenDirective, Bool.or_eq_true, beq_iff_eq] at h
  rcases h with (rfl | rfl) | rfl
  · decide
  · decide
  · decide

/-- A numbered name is no directive. -/
theorem isDirective_numberedName (before : Nat) (name : String) :
    isDirective (numberedName before name) = isDirective name := by
  cases hword : shorthand? name with
  | none => rw [numberedName_of_none hword]
  | some word =>
      rw [numberedName_of_some hword, Bool.eq_iff_iff]
      constructor
      · intro h
        exact absurd (directive_plain h).1 (by simp)
      · intro h
        rw [(directive_plain h).2] at hword
        exact absurd hword (by simp)

/-! ## Positions -/

/-- The name of an attribute that is a prop. -/
def propName? : Markup → Option String
  | .prop name _ => some name
  | _ => none

/-- The names of the props among attributes. -/
def propNames (attributes : List Markup) : List String :=
  attributes.filterMap propName?

/-- An attribute with a number, where each name came so often before. -/
def numberedAttribute (before : String → Nat) : Markup → Markup
  | .prop name value => .prop (numberedName (before name) name) value
  | other => other

theorem expandedFrom_cons (seen : List String) (attr : Markup) (rest : List Markup) :
    expandedFrom seen (attr :: rest) =
      numberedAttribute (seen.count ·) attr ::
        expandedFrom ((propName? attr).toList ++ seen) rest := by
  cases attr <;> rfl

theorem length_expandedFrom (seen : List String) (attributes : List Markup) :
    (expandedFrom seen attributes).length = attributes.length := by
  induction attributes generalizing seen with
  | nil => rfl
  | cons attr rest ih => rw [expandedFrom_cons, List.length_cons, List.length_cons, ih]

/-- Every attribute stays at its position, and the props before it decide its number. -/
theorem getElem?_expandedFrom (seen : List String) (attributes : List Markup) (i : Nat) :
    (expandedFrom seen attributes)[i]? =
      attributes[i]?.map (numberedAttribute fun name =>
        seen.count name + (propNames (attributes.take i)).count name) := by
  induction attributes generalizing seen i with
  | nil => simp [expandedFrom]
  | cons attr rest ih =>
      rw [expandedFrom_cons]
      cases i with
      | zero => simp [propNames]
      | succ i =>
          rw [List.getElem?_cons_succ, List.getElem?_cons_succ, ih, List.take_succ_cons]
          congr 2
          funext name
          rw [propNames, propNames, List.filterMap_cons]
          cases propName? attr with
          | none => simp
          | some first =>
              rw [Option.toList_some, List.singleton_append, List.count_cons, List.count_cons]
              omega

/-! ## Numbering once and again -/

/-- Without shorthands there is nothing to number. -/
theorem expandedFrom_eq_self {attributes : List Markup}
    (h : ∀ name ∈ propNames attributes, shorthand? name = none) (seen : List String) :
    expandedFrom seen attributes = attributes := by
  refine List.ext_getElem? fun i => ?_
  rw [getElem?_expandedFrom]
  cases hattr : attributes[i]? with
  | none => rfl
  | some attr =>
      rw [Option.map_some, Option.some.injEq]
      cases attr with
      | prop name value =>
          have hname : name ∈ propNames attributes :=
            List.mem_filterMap.mpr ⟨_, List.mem_of_getElem? hattr, rfl⟩
          rw [numberedAttribute, numberedName_of_none (h name hname)]
      | _ => rfl

theorem shorthand?_of_mem_expanded {attributes : List Markup} {seen : List String} {name : String}
    (h : name ∈ propNames (expandedFrom seen attributes)) : shorthand? name = none := by
  induction attributes generalizing seen with
  | nil => simp [propNames, expandedFrom] at h
  | cons attr rest ih =>
      cases attr with
      | prop other value =>
          rcases List.mem_cons.mp h with rfl | h
          · exact shorthand?_numberedName _ _
          · exact ih h
      | _ => exact ih h

theorem expanded_expanded (attributes : List Markup) :
    expanded (expanded attributes) = expanded attributes :=
  expandedFrom_eq_self (fun _ hname => shorthand?_of_mem_expanded hname) []

theorem filter_rendered_expanded (attributes : List Markup) :
    (expanded attributes).filter isRendered = expanded (attributes.filter isRendered) :=
  @filter_expandedFrom _ (fun name => !isDirective name) (fun _ _ => rfl)
    (fun before name => congrArg not (isDirective_numberedName before name)) [] attributes

theorem filter_directives_expanded (attributes : List Markup) :
    (expanded attributes).filter (fun attr => !isRendered attr) =
      attributes.filter fun attr => !isRendered attr := by
  have hkind : ∀ name value, (!isRendered (.prop name value)) = isDirective name := by
    simp [isRendered]
  have hfilter := @filter_expandedFrom (fun attr => !isRendered attr) _ hkind
    isDirective_numberedName [] attributes
  rw [expanded, hfilter]
  refine expandedFrom_eq_self (fun name hname => ?_) _
  rcases List.mem_filterMap.mp hname with ⟨attr, hattr, hprop⟩
  cases attr with
  | prop other value =>
      rw [propName?, Option.some.injEq] at hprop
      have hdirective := (List.mem_filter.mp hattr).2
      rw [hkind, hprop] at hdirective
      exact (directive_plain hdirective).2
  | _ => simp [propName?] at hprop

/-- Numbering and taking out directives do not get in each other's way. -/
theorem withoutDirectivesFrom_expanded (children : Option String) (attributes : List Markup) :
    withoutDirectivesFrom children (expanded attributes) =
      (withoutDirectivesFrom children attributes).map fun (kept, found) =>
        (expanded kept, found) := by
  have hkind : ∀ attr, isRendered attr = false → (!isRendered attr) = true := by simp
  rw [withoutDirectivesFrom_filter hkind children (expanded attributes),
    withoutDirectivesFrom_filter hkind children attributes, filter_directives_expanded,
    filter_rendered_expanded]
  cases withoutDirectivesFrom children (attributes.filter fun attr => !isRendered attr) <;> rfl

/-- Shorthands are numbered by their occurrence: every attribute stays at its position with its
    value, a prop that ends in a shorthand gets the number of its occurrence among the props of
    exactly its name, and all else stays as it is. Numbering twice is numbering once, and it
    makes no difference whether directives are taken out before or after. -/
theorem expanded_by_occurrence (attributes : List Markup) :
    (expanded attributes).length = attributes.length ∧
    (∀ (i : Nat) name value, attributes[i]? = some (.prop name value) →
      ∃ full, (expanded attributes)[i]? = some (.prop full value) ∧
        (EndsIn "@if" name → full = name ++ ".if_" ++
          toString ((propNames (attributes.take i)).count name + 1)) ∧
        (EndsIn "@process" name → full = name ++ ".process_" ++
          toString ((propNames (attributes.take i)).count name + 1)) ∧
        (¬ EndsIn "@if" name → ¬ EndsIn "@process" name → full = name)) ∧
    (∀ (i : Nat) attr, attributes[i]? = some attr → propName? attr = none →
      (expanded attributes)[i]? = some attr) ∧
    expanded (expanded attributes) = expanded attributes ∧
    ∀ children, withoutDirectivesFrom children (expanded attributes) =
      (withoutDirectivesFrom children attributes).map fun (kept, found) =>
        (expanded kept, found) := by
  have hposition := getElem?_expandedFrom [] attributes
  refine ⟨length_expandedFrom [] attributes, ?_, ?_, expanded_expanded attributes,
    fun children => withoutDirectivesFrom_expanded children attributes⟩
  · intro i name value hattr
    refine ⟨numberedName ((propNames (attributes.take i)).count name) name, ?_, ?_, ?_, ?_⟩
    · rw [expanded, hposition, hattr]
      simp [numberedAttribute]
    · exact fun hif => numberedName_if hif _
    · exact fun hprocess => numberedName_process hprocess _
    · intro hif hprocess
      exact numberedName_of_none (shorthand?_eq_none_iff.mpr ⟨hif, hprocess⟩) _
  · intro i attr hattr hother
    rw [expanded, hposition, hattr]
    cases attr with
    | prop name value => simp [propName?] at hother
    | _ => rfl

/-! ## Names that differ -/

/-- The names that props get, one after another; `seen` holds the names before. -/
def numberedNames (seen : List String) : List String → List String
  | [] => []
  | name :: rest => numberedName (seen.count name) name :: numberedNames (name :: seen) rest

theorem propNames_expandedFrom (seen : List String) (attributes : List Markup) :
    propNames (expandedFrom seen attributes) = numberedNames seen (propNames attributes) := by
  induction attributes generalizing seen with
  | nil => rfl
  | cons attr rest ih =>
      cases attr with
      | prop name value => exact congrArg (List.cons _) (ih (name :: seen))
      | _ => exact ih seen

/-- One of the names comes behind so many of its like, those that were seen before included. -/
def Occurs (seen names : List String) (name : String) (before : Nat) : Prop :=
  seen.count name ≤ before ∧ before < seen.count name + names.count name

theorem occurs_cons {seen rest : List String} {first name : String} {before : Nat} :
    Occurs seen (first :: rest) name before ↔
      name = first ∧ before = seen.count first ∨ Occurs (first :: seen) rest name before := by
  by_cases hname : name = first
  · subst hname
    simp only [Occurs, List.count_cons_self, true_and]
    omega
  · have hne : first ≠ name := fun heq => hname heq.symm
    simp only [Occurs, List.count_cons_of_ne hne, hname, false_and, false_or]

theorem mem_of_occurs {seen names : List String} {name : String} {before : Nat}
    (h : Occurs seen names name before) : name ∈ names := by
  rcases h with ⟨hle, hlt⟩
  exact List.count_pos_iff.mp (by omega)

/-- Every occurrence of a name gets its number. -/
theorem mem_numberedNames {seen names : List String} {full : String} :
    full ∈ numberedNames seen names ↔
      ∃ name before, Occurs seen names name before ∧ full = numberedName before name := by
  induction names generalizing seen with
  | nil =>
      rw [numberedNames]
      constructor
      · intro hmem
        exact absurd hmem List.not_mem_nil
      · rintro ⟨name, before, hoccurs, -⟩
        have hlt := hoccurs.2
        rw [List.count_nil] at hlt
        exact absurd hoccurs.1 (by omega)
  | cons first rest ih =>
      rw [numberedNames, List.mem_cons, ih]
      constructor
      · rintro (rfl | ⟨name, before, hoccurs, rfl⟩)
        · exact ⟨first, _, occurs_cons.mpr (Or.inl ⟨rfl, rfl⟩), rfl⟩
        · exact ⟨name, before, occurs_cons.mpr (Or.inr hoccurs), rfl⟩
      · rintro ⟨name, before, hoccurs, rfl⟩
        rcases occurs_cons.mp hoccurs with ⟨rfl, rfl⟩ | hoccurs
        · exact Or.inl rfl
        · exact Or.inr ⟨name, before, hoccurs, rfl⟩

theorem mem_numberedNames_of_none {seen names : List String} {name : String}
    (hname : shorthand? name = none) (h : name ∈ names) : name ∈ numberedNames seen names := by
  have hcount := List.count_pos_iff.mpr h
  exact mem_numberedNames.mpr ⟨name, seen.count name, ⟨Nat.le_refl _, by omega⟩,
    (numberedName_of_none hname _).symm⟩

/-- If all names but shorthands differ, numbered names differ exactly if none of those that a
    shorthand gets was written out. -/
theorem nodup_numberedNames_iff {seen names : List String}
    (h : ∀ name, shorthand? name = none → names.count name ≤ 1) :
    (numberedNames seen names).Nodup ↔
      ∀ name word before, shorthand? name = some word → Occurs seen names name before →
        numberedName before name ∉ names := by
  induction names generalizing seen with
  | nil => simp [numberedNames]
  | cons first rest ih =>
      have hrest : ∀ name, shorthand? name = none → rest.count name ≤ 1 := fun name hname =>
        Nat.le_trans List.count_le_count_cons (h name hname)
      rw [numberedNames, List.nodup_cons, ih hrest]
      constructor
      · rintro ⟨hfirst, hlater⟩ name word before hword hoccurs hmem
        rcases List.mem_cons.mp hmem with hsame | hbehind
        · -- The first name was written out, and a shorthand behind it gets it.
          have hnone : shorthand? first = none := by
            rw [← hsame]
            exact shorthand?_numberedName before name
          rcases occurs_cons.mp hoccurs with ⟨rfl, -⟩ | hoccurs
          · rw [hnone] at hword
            exact absurd hword (by simp)
          · rw [numberedName_of_none hnone] at hfirst
            exact hfirst (mem_numberedNames.mpr ⟨name, before, hoccurs, hsame.symm⟩)
        · rcases occurs_cons.mp hoccurs with ⟨rfl, rfl⟩ | hoccurs
          · exact hfirst (mem_numberedNames_of_none (shorthand?_numberedName _ _) hbehind)
          · exact hlater name word before hword hoccurs hbehind
      · intro hall
        refine ⟨fun hmem => ?_, fun name word before hword hoccurs hmem =>
          hall name word before hword (occurs_cons.mpr (Or.inr hoccurs))
            (List.mem_cons_of_mem _ hmem)⟩
        rcases mem_numberedNames.mp hmem with ⟨name, before, hoccurs, hsame⟩
        cases hword : shorthand? first with
        | some word =>
            have hwritten := hall first word _ hword (occurs_cons.mpr (Or.inl ⟨rfl, rfl⟩))
            cases hother : shorthand? name with
            | some word' =>
                -- It would be the same occurrence, but the first is counted before the others.
                rcases numberedName_inj hword hother hsame with ⟨rfl, rfl⟩
                have hle := hoccurs.1
                rw [List.count_cons_self] at hle
                omega
            | none =>
                rw [numberedName_of_none hother] at hsame
                rw [hsame] at hwritten
                exact hwritten (List.mem_cons_of_mem _ (mem_of_occurs hoccurs))
        | none =>
            rw [numberedName_of_none hword] at hsame
            cases hother : shorthand? name with
            | some word' =>
                have hwritten := hall name word' before hother (occurs_cons.mpr (Or.inr hoccurs))
                rw [← hsame] at hwritten
                exact hwritten List.mem_cons_self
            | none =>
                -- Names that are no shorthands are written once.
                rw [numberedName_of_none hother] at hsame
                subst hsame
                have hone := h first hword
                have hcount := List.count_pos_iff.mpr (mem_of_occurs hoccurs)
                rw [List.count_cons_self] at hone
                omega

/-! ## Paths that differ -/

/-- No two names have one path in a tag. -/
theorem propPath_inj {tag name other : String}
    (h : propPath (scope tag) name = propPath (scope tag) other) : name = other := by
  -- Meta paths start with an at sign, and the scope of plain tags does not.
  have hapart : ∀ {first second : String}, isMeta first = true → isMeta second ≠ true →
      first ≠ scope tag ++ second := by
    rintro first second hfirst hsecond rfl
    unfold scope at hfirst
    by_cases htag : isPrototype tag = true
    · rw [if_pos htag, String.empty_append] at hfirst
      exact hsecond hfirst
    · rw [if_neg htag] at hfirst
      simp [isMeta] at hfirst
  unfold propPath at h
  by_cases hname : isMeta name = true
  · rw [if_pos hname] at h
    by_cases hother : isMeta other = true
    · rwa [if_pos hother] at h
    · rw [if_neg hother] at h
      exact absurd h (hapart hname hother)
  · rw [if_neg hname] at h
    by_cases hother : isMeta other = true
    · rw [if_pos hother] at h
      exact absurd h.symm (hapart hother hname)
    · rw [if_neg hother, ← String.toList_inj, String.toList_append, String.toList_append] at h
      exact String.toList_inj.mp (List.append_cancel_left h)

/-- If all names but shorthands differ, the names of props differ once shorthands are numbered,
    and so do their paths in every tag, exactly if none of the names that a shorthand gets was
    written out. -/
theorem expanded_names_differ_iff {attributes : List Markup}
    (h : ∀ name, ¬ EndsIn "@if" name → ¬ EndsIn "@process" name →
      (propNames attributes).count name ≤ 1) :
    ((propNames (expanded attributes)).Nodup ↔
      ∀ name number, 1 ≤ number → number ≤ (propNames attributes).count name →
        (EndsIn "@if" name → name ++ ".if_" ++ toString number ∉ propNames attributes) ∧
        (EndsIn "@process" name →
          name ++ ".process_" ++ toString number ∉ propNames attributes)) ∧
    ∀ tag, (((propNames (expanded attributes)).map (propPath (scope tag))).Nodup ↔
      (propNames (expanded attributes)).Nodup) := by
  have hnames : ∀ name, shorthand? name = none → (propNames attributes).count name ≤ 1 := by
    intro name hname
    rcases shorthand?_eq_none_iff.mp hname with ⟨hif, hprocess⟩
    exact h name hif hprocess
  refine ⟨?_, fun tag => List.nodup_map_iff fun _ _ => propPath_inj⟩
  rw [expanded, propNames_expandedFrom, nodup_numberedNames_iff hnames]
  constructor
  · intro hall name number hone hle
    -- The number of an occurrence is one more than how many of its like come before.
    rcases Nat.exists_eq_succ_of_ne_zero (by omega : number ≠ 0) with ⟨before, rfl⟩
    have hoccurs : Occurs [] (propNames attributes) name before := by
      simp only [Occurs, List.count_nil]
      omega
    constructor
    · intro hif
      rw [← numberedName_if hif]
      exact hall name _ before (shorthand?_eq_some_iff.mpr (Or.inl ⟨rfl, hif⟩)) hoccurs
    · intro hprocess
      rw [← numberedName_process hprocess]
      exact hall name _ before (shorthand?_eq_some_iff.mpr (Or.inr ⟨rfl, hprocess⟩)) hoccurs
  · intro hall name word before hword hoccurs
    have hlt := hoccurs.2
    rw [List.count_nil, Nat.zero_add] at hlt
    have hnumber := hall name (before + 1) (by omega) hlt
    rcases shorthand?_eq_some_iff.mp hword with ⟨-, hif⟩ | ⟨-, hprocess⟩
    · rw [numberedName_if hif]
      exact hnumber.1 hif
    · rw [numberedName_process hprocess]
      exact hnumber.2 hprocess

/-- A name that was written out with the number behind the last one. -/
theorem expanded_names_differ_iff_next :
    propNames (expanded [.prop "@if" (.expression "x"), .prop "foo.@if" (.expression "y"),
        .spread (.expression "s"), .prop "@if" (.expression "z"), .prop "@if.if_3" (.flag true)]) =
      ["@if.if_1", "foo.@if.if_1", "@if.if_2", "@if.if_3"] ∧
    (["@if.if_1", "foo.@if.if_1", "@if.if_2", "@if.if_3"].map (propPath (scope "a"))).Nodup ∧
    "@if" ++ ".if_" ++ toString 2 ∉ ["@if", "foo.@if", "@if", "@if.if_3"] := by
  have hnames : ∀ name, ¬ EndsIn "@if" name → ¬ EndsIn "@process" name →
      (propNames [.prop "@if" (.expression "x"), .prop "foo.@if" (.expression "y"),
        .spread (.expression "s"), .prop "@if" (.expression "z"),
        .prop "@if.if_3" (.flag true)]).count name ≤ 1 := by
    intro name hif _
    have hne : "@if" ≠ name := fun h => hif (Or.inl h.symm)
    have hrest : ["foo.@if", "@if", "@if.if_3"].Nodup := by decide
    exact (List.count_cons_of_ne hne).trans_le (List.nodup_iff_count_le_one.mp hrest name)
  rcases expanded_names_differ_iff hnames with ⟨hiff, hpaths⟩
  have hnodup : ["@if.if_1", "foo.@if.if_1", "@if.if_2", "@if.if_3"].Nodup := by decide
  exact ⟨rfl, (hpaths "a").mpr hnodup,
    (hiff.mp hnodup "@if" 2 (by decide) (by decide)).1 (Or.inl rfl)⟩

/-- All names but shorthands differ, and still two props come to one path: a shorthand gets the
    name that was written out behind it. -/
theorem shorthand_meets_written_name :
    read "<a @if=\x7bx\x7d @if.if_1=\x7by\x7d/>".toList =
      .ok [.element "a" true
        [.prop "@if" (.expression "x"), .prop "@if.if_1" (.expression "y")] []] ∧
    (∀ name, ¬ EndsIn "@if" name → ¬ EndsIn "@process" name →
      (propNames [.prop "@if" (.expression "x"), .prop "@if.if_1" (.expression "y")]).count
        name ≤ 1) ∧
    propNames (expanded [.prop "@if" (.expression "x"), .prop "@if.if_1" (.expression "y")]) =
      ["@if.if_1", "@if.if_1"] ∧
    ¬ (propNames (expanded
      [.prop "@if" (.expression "x"), .prop "@if.if_1" (.expression "y")])).Nodup := by
  have hnames : ["@if", "@if.if_1"].Nodup := by decide
  exact ⟨rfl, fun name _ _ => List.nodup_iff_count_le_one.mp hnames name, rfl, by decide⟩

end Fusion

end Afx
