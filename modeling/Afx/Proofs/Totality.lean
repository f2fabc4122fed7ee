import Afx.Proofs.Keys
import Afx.Proofs.ReadBack
import Mathlib.Logic.Relation

/-!
# Markup That Renders

Rendering can fail in two ways: a directive has no text, or the budget runs out.
Nothing else goes wrong with markup that was read. So markup renders if its
directives have texts and its tags do not nest too deeply.

Not all directives count, and not all count in the same way. Of several children
that ask for one path only the last is rendered, and the others are left out with
all that is in them. A directive of a tag that is rendered is refused wherever it
stands among the attributes, also if another one behind it would take its place.
But of a child that is left out only the path is looked at, and there the last
prop counts. `Rendered` are the values that rendering comes to, and `Faulty` is
what it refuses about a tag that it comes to.

A tag at the end of its branch needs five units of the budget: one for itself, and
four for a prop in a group, which is the most that an attribute takes. Every tag
around it adds three, one for itself, one for the list of its children and one for
a member of it. So `n` tags that nest need `3 * n + 2`, and a list of siblings
needs two units more than the largest of them.

Both answers are found together. `Accounted` says of a computation when it may
fail, that it fails for no other reason, and that it does not succeed if there was
something to refuse. It is put together along the steps of rendering, and the
induction over markup has one case for each kind of value.

## Main definitions

* `isTextual`: Whether a directive has a text.
* `textualDirectives`, `textualDirectivesAll`: All directives have texts.
* `Faulty`: A tag that is refused for its directives.
* `RendersChild`, `Rendered`: The values that rendering comes to.
* `Accounted`: A computation whose failures are accounted for.

## Theorems

* `accounted_bind`, `accounted_collect`: Steps one after another.
* `accounted_prepared`, `accounted_field`: The attributes of a tag.
* `mem_placedChildren_iff`: Of several children with one path, the last is placed.
* `accounted_siblings`, `accounted_element`: Siblings and tags, by their members.
* `accounted_values`: What each of several siblings needs.
* `generate_cases`: The three ways in which generation ends.
* `generate_fails_iff`: Generation fails exactly on directives without a text.
* `succeeds_generate`, `generate_trees`: Markup that renders with the budget that there is.
-/

namespace Afx

namespace Fusion

open Markup

/-! ## Directives with texts -/

/-- A directive among the attributes has a text. -/
def isTextual : Markup → Bool
  | .prop name value => !isDirective name || (textOf? value).isSome
  | _ => true

mutual

/-- All directives in a value have texts. -/
def textualDirectives : Markup → Bool
  | .element _ _ attributes children => attributes.all isTextual && textualDirectivesAll children
  | _ => true

/-- All directives in a list of values have texts. -/
def textualDirectivesAll : List Markup → Bool
  | [] => true
  | value :: rest => textualDirectives value && textualDirectivesAll rest

end

theorem textualDirectives_of_mem {values : List Markup} (h : textualDirectivesAll values = true) :
    ∀ one ∈ values, textualDirectives one = true := by
  induction values with
  | nil => simp
  | cons first rest ih =>
      rw [textualDirectivesAll, Bool.and_eq_true] at h
      intro one hone
      rcases List.mem_cons.mp hone with rfl | hone
      · exact h.1
      · exact ih h.2 one hone

/-! ## What is refused -/

/-- A directive without a text stands among the attributes. -/
def Refused (attributes : List Markup) : Prop :=
  ∃ attr ∈ attributes, isTextual attr = false

/-- A tag whose directive of a name has no text, where of several the last counts. -/
def RefusedLast (name : String) : Markup → Prop
  | .element _ _ attributes _ =>
    ∃ value, lastProp? name attributes = some value ∧ textOf? value = none
  | _ => False

/-- A tag that is refused: for a directive of its own, or for the path of a child. -/
def Faulty : Markup → Prop
  | .element _ _ attributes children =>
    Refused attributes ∨ ∃ child ∈ children, RefusedLast "@path" child
  | _ => False

/-- The children of a tag that are rendered with it: those without a path of their own, and
    of those with the same path the last one. -/
inductive RendersChild : Markup → Markup → Prop where
  | content {name : String} {selfClosing : Bool} {attributes children : List Markup}
      {child : Markup} (hchild : child ∈ children) (hnone : ¬ AsksPath child) :
      RendersChild (.element name selfClosing attributes children) child
  | placed {name : String} {selfClosing : Bool} {attributes children : List Markup}
      {child : Markup} (path : String)
      (hlast : (children.filter fun other => pathOf other == some path).getLast? = some child) :
      RendersChild (.element name selfClosing attributes children) child

/-- What rendering a list of values comes to: its members, and whatever is rendered with
    them. -/
def Rendered (values : List Markup) (one : Markup) : Prop :=
  ∃ top ∈ values, Relation.ReflTransGen RendersChild top one

/-- Rendering a value comes to a tag that is refused. -/
def FaultyBelow (one : Markup) : Prop :=
  ∃ node, Relation.ReflTransGen RendersChild one node ∧ Faulty node

theorem faultyBelow_iff (one : Markup) :
    FaultyBelow one ↔ Faulty one ∨ ∃ child, RendersChild one child ∧ FaultyBelow child := by
  constructor
  · rintro ⟨node, hreach, hfaulty⟩
    rcases hreach.cases_head with rfl | ⟨child, hchild, hreach⟩
    · exact Or.inl hfaulty
    · exact Or.inr ⟨child, hchild, node, hreach, hfaulty⟩
  · rintro (hfaulty | ⟨child, hchild, node, hreach, hfaulty⟩)
    · exact ⟨one, .refl, hfaulty⟩
    · exact ⟨node, .head hchild hreach, hfaulty⟩

/-- Only a tag has anything to refuse. -/
theorem element_of_faultyBelow {one : Markup} (h : FaultyBelow one) :
    ∃ name selfClosing attributes children,
      one = .element name selfClosing attributes children := by
  rcases (faultyBelow_iff one).mp h with hfaulty | ⟨child, hchild, -⟩
  · cases one with
    | element name selfClosing attributes children =>
        exact ⟨name, selfClosing, attributes, children, rfl⟩
    | _ => exact False.elim hfaulty
  · cases hchild with
    | content _ _ => exact ⟨_, _, _, _, rfl⟩
    | placed _ _ => exact ⟨_, _, _, _, rfl⟩

/-! ## Failures that are accounted for -/

/-- A fault in a directive, which is one of those that say where tags and children go. -/
def IsDirectiveFault (fault : Fault) : Prop :=
  ∃ name kind, isDirective name = true ∧ fault = .directivePayload name kind

/-- A computation that fails only if its budget is too short or there is something to refuse,
    and that does not succeed if there is something to refuse. -/
structure Accounted {α : Type} (x : Except Fault α) (short refused : Prop) : Prop where
  ok : ∀ {a}, x = .ok a → ¬ refused
  error : ∀ {fault}, x = .error fault →
    fault = .nestedTooDeeply ∧ short ∨ IsDirectiveFault fault ∧ refused

section Steps

variable {α β : Type} {x : Except Fault α} {short short' refused refused' : Prop}

theorem accounted_ok (a : α) (h : ¬ refused) : Accounted (.ok a) short refused :=
  ⟨fun _ => h, by simp⟩

/-- The budget has run out. -/
theorem accounted_short (h : short) :
    Accounted (.error .nestedTooDeeply : Except Fault α) short refused :=
  ⟨by simp, fun hfault => Or.inl ⟨(Except.error.inj hfault).symm, h⟩⟩

theorem Accounted.imp (h : Accounted x short refused) (hshort : short → short')
    (hrefused : refused ↔ refused') : Accounted x short' refused' := by
  refine ⟨fun hx => fun hc => h.ok hx (hrefused.mpr hc), fun hfault => ?_⟩
  rcases h.error hfault with ⟨hdeep, hs⟩ | ⟨hdirective, hr⟩
  · exact Or.inl ⟨hdeep, hshort hs⟩
  · exact Or.inr ⟨hdirective, hrefused.mp hr⟩

theorem accounted_bind {f : α → Except Fault β} (h : Accounted x short refused)
    (hf : ∀ a, x = .ok a → Accounted (f a) short refused') :
    Accounted (x >>= f) short (refused ∨ refused') := by
  cases hx : x with
  | error fault =>
      -- The steps behind a fault are not taken, and it is this fault that is reported.
      refine ⟨fun hok => by simp [bind, Except.bind] at hok, fun hfault => ?_⟩
      rw [← Except.error.inj hfault]
      rcases h.error hx with hdeep | ⟨hdirective, hr⟩
      · exact Or.inl hdeep
      · exact Or.inr ⟨hdirective, Or.inl hr⟩
  | ok a =>
      have hfa := hf a hx
      refine ⟨fun hok => not_or.mpr ⟨h.ok hx, hfa.ok hok⟩, fun hfault => ?_⟩
      rcases hfa.error hfault with hdeep | ⟨hdirective, hr⟩
      · exact Or.inl hdeep
      · exact Or.inr ⟨hdirective, Or.inr hr⟩

/-- A last step that cannot fail changes nothing. -/
theorem accounted_pure (h : Accounted x short refused) (f : α → β) :
    Accounted (x >>= fun a => pure (f a)) short refused :=
  (accounted_bind h fun _ _ => accounted_ok _ id).imp id (iff_of_eq (or_false _))

theorem accounted_map (h : Accounted x short refused) (f : α → β) :
    Accounted (x.map f) short refused := by
  cases hx : x with
  | error fault =>
      refine ⟨fun hok => by simp [Except.map] at hok, fun hfault => h.error ?_⟩
      rw [hx, ← Except.error.inj hfault]
  | ok a => exact accounted_ok _ (h.ok hx)

/-- The steps of a list are accounted for by its parts. -/
theorem accounted_collect {render : α → Except Fault (Option β)} {parts : List α}
    {refused : α → Prop} (h : ∀ part ∈ parts, Accounted (render part) short (refused part)) :
    Accounted (collect render parts) short (∃ part ∈ parts, refused part) := by
  induction parts with
  | nil => exact accounted_ok [] (by simp)
  | cons part rest ih =>
      have hrest := ih fun other hother => h other (List.mem_cons_of_mem _ hother)
      have hpart := h part (by simp)
      have hcollect : collect render (part :: rest) = render part >>= fun found =>
          (collect render rest).map (found.toList ++ ·) := by
        rw [collect]
        cases render part with
        | error fault => rfl
        | ok found => cases found <;> cases collect render rest <;> rfl
      rw [hcollect]
      refine (accounted_bind hpart fun found _ => accounted_map hrest _).imp id ?_
      simp

end Steps

/-! ## Attributes -/

theorem accounted_payload {name : String} (hname : isDirective name = true) (value : Markup)
    (short : Prop) : Accounted (payload name value) short (textOf? value = none) := by
  cases value with
  | literal content => exact accounted_ok content (by simp [textOf?])
  | _ =>
      refine ⟨by simp [payload], fun hfault => Or.inr ⟨?_, rfl⟩⟩
      exact ⟨name, _, hname, (Except.error.inj hfault).symm⟩

theorem refused_cons (attr : Markup) (rest : List Markup) :
    Refused (attr :: rest) ↔ isTextual attr = false ∨ Refused rest := by
  simp [Refused]

theorem isTextual_directive {name : String} (hname : isDirective name = true) (value : Markup) :
    isTextual (.prop name value) = false ↔ textOf? value = none := by
  simp [isTextual, hname]

theorem accounted_withoutDirectivesFrom (children : Option String) (attributes : List Markup)
    (short : Prop) :
    Accounted (withoutDirectivesFrom children attributes) short (Refused attributes) := by
  -- A directive is looked at first, and then the attributes behind it.
  have hdirective : ∀ {name value rest}
      {next : String → Except Fault (List Markup × Option String)},
      isDirective name = true → (∀ text, Accounted (next text) short (Refused rest)) →
      Accounted (payload name value >>= next) short (Refused (.prop name value :: rest)) := by
    intro name value rest next hname hnext
    refine (accounted_bind (accounted_payload hname value short) fun text _ => hnext text).imp id ?_
    rw [refused_cons, isTextual_directive hname]
  induction attributes generalizing children with
  | nil => exact accounted_ok _ (by simp [Refused])
  | cons attr rest ih =>
      have hother : isTextual attr = true →
          Accounted ((withoutDirectivesFrom children rest).map fun found =>
            (attr :: found.1, found.2)) short (Refused (attr :: rest)) := fun htextual =>
        (accounted_map (ih children) _).imp id (by rw [refused_cons, htextual]; simp)
      cases attr with
      | prop name value =>
          rw [withoutDirectivesFrom]
          by_cases hparent : isParentDirective name = true
          · rw [if_pos hparent]
            have hname : isDirective name = true := by simp [isDirective, hparent]
            have hstep := @hdirective name value rest _ hname fun _ => ih children
            cases hpayload : payload name value <;> rw [hpayload] at hstep <;> exact hstep
          · rw [if_neg hparent]
            by_cases hchildren : (name == childrenDirective) = true
            · rw [if_pos hchildren]
              have hname : isDirective name = true := by simp [isDirective, hchildren]
              have hstep := @hdirective name value rest _ hname fun text => ih (some text)
              cases hpayload : payload name value <;> rw [hpayload] at hstep <;> exact hstep
            · rw [if_neg hchildren]
              exact hother (by simp [isTextual, isDirective, hparent, hchildren])
      | _ => exact hother rfl

theorem accounted_prepared (attributes : List Markup) (short : Prop) :
    Accounted (prepared attributes) short (Refused attributes) :=
  accounted_map (accounted_withoutDirectivesFrom none attributes short) _

section Attributes

variable (v : Vocabulary) (n : Nat)

theorem accounted_leaf {name : String} {one : Markup} (h : WellFormedAttribute (.prop name one)) :
    Accounted (value v n one) (n < 1) False := by
  cases n with
  | zero => rw [value]; exact accounted_short (by omega)
  | succ n =>
      rcases wellFormedProp_cases h with ⟨-, rfl | ⟨content, rfl⟩ | ⟨code, rfl, -⟩⟩
      · exact accounted_ok _ id
      · exact accounted_ok _ id
      · exact accounted_ok _ id

theorem accounted_assignment (path : String) {name : String} {one : Markup}
    (h : WellFormedAttribute (.prop name one)) :
    Accounted (assignment v n path one) (n < 2) False := by
  cases n with
  | zero => rw [assignment]; exact accounted_short (by omega)
  | succ n =>
      rw [assignment]
      have hleaf := (accounted_leaf v n h).imp (fun hn => show n + 1 < 2 by omega) Iff.rfl
      exact accounted_pure hleaf _

theorem accounted_collection {props : List (String × Markup)}
    (hprops : ∀ prop ∈ props, WellFormedAttribute (.prop prop.1 prop.2)) :
    Accounted (collection v n props) (n < 3) False := by
  cases n with
  | zero => rw [collection]; exact accounted_short (by omega)
  | succ n =>
      rw [collection]
      have hentries : Accounted (collect (fun prop => assignment v n prop.1 prop.2) props)
          (n + 1 < 3) (∃ prop ∈ props, False) :=
        accounted_collect fun prop hprop =>
          (accounted_assignment v n prop.1 (hprops prop hprop)).imp (by omega) Iff.rfl
      exact (accounted_pure hentries _).imp id (by simp)

/-- An attribute renders within four units, which is what a prop in a group needs. -/
theorem accounted_field (within : String) (number : Nat) {attr : Markup} (h : Prepared attr) :
    Accounted (field v n within number attr) (n < 4) False := by
  cases n with
  | zero => rw [field]; exact accounted_short (by omega)
  | succ n =>
      rcases h with h | ⟨props, rfl, hprops⟩
      · rcases wellFormedAttribute_cases h with ⟨name, one, rfl⟩ | ⟨code, rfl, -⟩
        · rw [field]
          exact (accounted_assignment v n _ h).imp (by omega) Iff.rfl
        · exact accounted_ok _ id
      · rw [field]
        have hgroup := (accounted_collection v n hprops).imp (fun hn => show n + 1 < 4 by omega)
          Iff.rfl
        exact accounted_pure hgroup _

end Attributes

/-! ## Directives that the parent obeys -/

/-- A directive of a name is refused by the last prop of that name. -/
theorem accounted_lastProp {name tag : String} {selfClosing : Bool}
    {attributes children : List Markup} {value : Markup} (hname : isDirective name = true)
    (h : lastProp? name attributes = some value) (short : Prop) :
    Accounted (payload name value) short
      (RefusedLast name (.element tag selfClosing attributes children)) := by
  refine (accounted_payload hname value short).imp id ?_
  simp [RefusedLast, h]

/-- A tag that is refused by the last of its directives has a directive without a text. -/
theorem refused_of_refusedLast {name tag : String} {selfClosing : Bool}
    {attributes children : List Markup} (hname : isDirective name = true)
    (h : RefusedLast name (.element tag selfClosing attributes children)) :
    Refused attributes := by
  rcases h with ⟨value, hvalue, htext⟩
  rcases List.mem_filterMap.mp (List.mem_of_getLast? hvalue) with ⟨attr, hattr, hprop⟩
  refine ⟨attr, hattr, ?_⟩
  cases attr with
  | prop other found =>
      by_cases hother : other = name
      · subst hother
        rw [valueOf?, if_pos (beq_self_eq_true other), Option.some.injEq] at hprop
        rw [isTextual_directive hname, hprop, htext]
      · simp [valueOf?_prop_of_ne hother] at hprop
  | _ => simp [valueOf?] at hprop

theorem faultyBelow_of_refusedLast {name : String} (hname : isDirective name = true) {one : Markup}
    (h : RefusedLast name one) : FaultyBelow one := by
  cases one with
  | element tag selfClosing attributes children =>
      exact (faultyBelow_iff _).mpr (Or.inl (Or.inl (refused_of_refusedLast hname h)))
  | _ => exact False.elim h

theorem accounted_memberPath (number : Nat) (one : Markup) (short : Prop) :
    Accounted (memberPath number one) short (RefusedLast "@key" one) := by
  cases one with
  | element name selfClosing attributes children =>
      rw [memberPath]
      cases hkey : lastProp? "@key" attributes with
      | none => exact accounted_ok _ (by simp [RefusedLast, hkey])
      | some value => exact accounted_lastProp (by decide) hkey short
  | _ => exact accounted_ok _ id

theorem accounted_placedFrom (placed : List (String × Markup)) (children : List Markup)
    (short : Prop) :
    Accounted (placedFrom placed children) short
      (∃ child ∈ children, RefusedLast "@path" child) := by
  induction children generalizing placed with
  | nil => exact accounted_ok _ (by simp)
  | cons child rest ih =>
      rw [placedFrom]
      simp only [List.mem_cons, exists_eq_or_imp]
      cases hpath : ownPath? child with
      | none =>
          -- Without a path there is nothing to refuse about the child.
          have hnone : ¬ RefusedLast "@path" child := by
            cases child with
            | element name selfClosing attributes children =>
                rw [ownPath?, Option.map_eq_none_iff] at hpath
                simp [RefusedLast, hpath]
            | _ => exact id
          exact (ih placed).imp id (by simp [hnone])
      | some path =>
          have hasked : Accounted path short (RefusedLast "@path" child) := by
            cases child with
            | element name selfClosing attributes children =>
                rw [ownPath?, Option.map_eq_some_iff] at hpath
                rcases hpath with ⟨value, hvalue, rfl⟩
                exact accounted_lastProp (by decide) hvalue short
            | _ => simp [ownPath?] at hpath
          have hstep := accounted_bind hasked fun text _ => ih (assign text child placed)
          cases path with
          | error fault => exact hstep
          | ok text => exact hstep

/-- Of the children with one path, the last is placed. -/
theorem mem_placedChildren_iff {children : List Markup} {placed : List (String × Markup)}
    (h : placedChildren children = .ok placed) (path : String) (child : Markup) :
    (path, child) ∈ placed ↔
      (children.filter fun other => pathOf other == some path).getLast? = some child := by
  have hentries : ((children.filterMap fun child =>
        (pathOf child).map fun path => (path, child)).filter fun entry => entry.1 == path) =
      (children.filter fun other => pathOf other == some path).map fun child => (path, child) := by
    clear h
    induction children with
    | nil => rfl
    | cons first rest ih =>
        rw [List.filterMap_cons]
        cases hpath : pathOf first with
        | none =>
            rw [List.filter_cons_of_neg (by simp [hpath])]
            exact ih
        | some other =>
            by_cases hother : other = path
            · subst hother
              rw [List.filter_cons_of_pos (by simp [hpath]), List.map_cons, ← ih]
              simp
            · rw [List.filter_cons_of_neg (by simp [hpath, hother]), ← ih]
              simp [hother]
  rw [(placedFrom_eq_ok h).2, mem_assignAll_iff, hentries, List.getLast?_map]
  simp

/-! ## Siblings and tags -/

/-- A tag can be seen as it is, and nothing else has anything to refuse. -/
theorem faultyBelow_visible (values : List Markup) :
    (∃ shown ∈ visible values, FaultyBelow shown) ↔ ∃ one ∈ values, FaultyBelow one := by
  constructor
  · rintro ⟨shown, hmem, hfaulty⟩
    rcases List.mem_filterMap.mp hmem with ⟨one, hone, hshown⟩
    rcases shown_cases hshown with rfl | ⟨raw, rfl, rfl⟩
    · exact ⟨shown, hone, hfaulty⟩
    · rcases element_of_faultyBelow hfaulty with ⟨_, _, _, _, htext⟩
      simp at htext
  · rintro ⟨one, hone, hfaulty⟩
    rcases element_of_faultyBelow hfaulty with ⟨name, selfClosing, attributes, children, rfl⟩
    exact ⟨_, List.mem_filterMap.mpr ⟨_, hone, rfl⟩, hfaulty⟩

section Values

variable {v : Vocabulary} {m : Nat}

/-- What each of several values needs, if at most `m` tags nest in them. -/
def AccountedValues (v : Vocabulary) (m : Nat) (values : List Markup) : Prop :=
  ∀ one ∈ values, ∀ n, Accounted (value v n one) (n < 3 * m + 2) (FaultyBelow one)

/-- A value that is no tag renders with one unit. -/
theorem accounted_plain {one : Markup} {found : Option Value}
    (hone : ∀ n, value v (n + 1) one = .ok found)
    (hplain : ∀ name selfClosing attributes children,
      one ≠ .element name selfClosing attributes children) (n : Nat) :
    Accounted (value v n one) (n < 3 * m + 2) (FaultyBelow one) := by
  cases n with
  | zero => rw [value]; exact accounted_short (by omega)
  | succ n =>
      rw [hone n]
      refine accounted_ok _ fun hfaulty => ?_
      rcases element_of_faultyBelow hfaulty with ⟨name, selfClosing, attributes, children, htag⟩
      exact hplain name selfClosing attributes children htag

/-- Several siblings are refused if one of them is: a key that cannot be had would be refused
    by the tag itself. -/
theorem accounted_members {n : Nat} {short : Prop} {shown : List Markup}
    (h : ∀ one ∈ shown, Accounted (member v n one) short (FaultyBelow one)) :
    Accounted (collect (fun (one, number) => do
        let path ← memberPath number one
        return (← member v n one).map fun rendered => (path, rendered)) (shown.zipIdx 1)) short
      (∃ one ∈ shown, FaultyBelow one) := by
  have hpart : ∀ part ∈ shown.zipIdx 1, Accounted (do
      let path ← memberPath part.2 part.1
      return (← member v n part.1).map fun rendered => (path, rendered)) short
        (FaultyBelow part.1) := by
    intro part hpart
    have hkey := accounted_memberPath part.2 part.1 short
    have hvalue := h part.1 (List.fst_mem_of_mem_zipIdx hpart)
    refine (accounted_bind hkey fun _ _ => accounted_pure hvalue _).imp id ?_
    exact or_iff_right_of_imp (faultyBelow_of_refusedLast (by decide))
  refine (accounted_collect hpart).imp id ?_
  constructor
  · rintro ⟨part, hmem, hfaulty⟩
    exact ⟨part.1, List.fst_mem_of_mem_zipIdx hmem, hfaulty⟩
  · rintro ⟨one, hone, hfaulty⟩
    rcases List.mem_iff_getElem?.mp hone with ⟨i, hi⟩
    refine ⟨(one, i + 1), ?_, hfaulty⟩
    rw [List.mem_zipIdx_iff_le_and_getElem?_sub]
    exact ⟨Nat.le_add_left 1 i, hi⟩

/-- Siblings render with two units more than each of them needs. -/
theorem accounted_siblings {values : List Markup} (h : AccountedValues v m values) (n : Nat) :
    Accounted (siblings v n values) (n < 3 * m + 4) (∃ one ∈ values, FaultyBelow one) := by
  refine Accounted.imp ?_ id (faultyBelow_visible values)
  -- A text is seen without its layout, and any text renders.
  have hmember : ∀ shown ∈ visible values, ∀ n,
      Accounted (member v n shown) (n < 3 * m + 3) (FaultyBelow shown) := by
    intro shown hmem n
    cases n with
    | zero => rw [member]; exact accounted_short (by omega)
    | succ n =>
        rw [member]
        rcases List.mem_filterMap.mp hmem with ⟨one, hone, hshown⟩
        rcases shown_cases hshown with rfl | ⟨raw, rfl, rfl⟩
        · exact (h shown hone n).imp (by omega) Iff.rfl
        · exact (@accounted_plain v m _ _ (fun _ => rfl) (by simp) n).imp (by omega) Iff.rfl
  cases n with
  | zero => rw [siblings]; exact accounted_short (by omega)
  | succ n =>
      rw [siblings]
      generalize visible values = shown at hmember ⊢
      have hshort : n < 3 * m + 3 → n + 1 < 3 * m + 4 := by omega
      rcases shown with _ | ⟨first, _ | ⟨second, rest⟩⟩
      · exact accounted_ok _ (by simp)
      · have hfirst := (hmember first (by simp) n).imp hshort Iff.rfl
        exact (accounted_pure hfirst _).imp id (by simp)
      · have hmembers := accounted_members fun one hone => (hmember one hone n).imp hshort Iff.rfl
        exact accounted_pure hmembers _

/-- The children with a path of their own need what each of them needs. -/
theorem accounted_renderedPlaced {children : List Markup} (h : AccountedValues v m children)
    (n : Nat) :
    Accounted (renderedPlaced v n children) (n < 3 * m + 4)
      ((∃ child ∈ children, RefusedLast "@path" child) ∨
        ∃ path child,
          (children.filter fun other => pathOf other == some path).getLast? = some child ∧
          FaultyBelow child) := by
  refine accounted_bind (accounted_placedFrom [] children _) fun placed hplaced => ?_
  have hpart : ∀ part ∈ placed, Accounted (do
      return (← value v n part.2).map fun inner => (part.1, inner)) (n < 3 * m + 4)
        (FaultyBelow part.2) := by
    intro part hpart
    have hchild := List.mem_of_getLast? ((mem_placedChildren_iff hplaced part.1 part.2).mp hpart)
    have hvalue := (h part.2 (List.mem_filter.mp hchild).1 n).imp
      (fun hn => show n < 3 * m + 4 by omega) Iff.rfl
    exact accounted_pure hvalue _
  refine (accounted_collect hpart).imp id ?_
  constructor
  · rintro ⟨part, hmem, hfaulty⟩
    exact ⟨part.1, part.2, (mem_placedChildren_iff hplaced _ _).mp hmem, hfaulty⟩
  · rintro ⟨path, child, hlast, hfaulty⟩
    exact ⟨(path, child), (mem_placedChildren_iff hplaced _ _).mpr hlast, hfaulty⟩

theorem accounted_renderedContent {children : List Markup} (h : AccountedValues v m children)
    (property : Option String) (n : Nat) :
    Accounted (renderedContent v n property children) (n < 3 * m + 4)
      (∃ child ∈ contentChildren children, FaultyBelow child) := by
  rw [renderedContent]
  by_cases hnone : (contentChildren children).isEmpty = true
  · rw [if_pos hnone]
    exact accounted_ok _ (by simp [List.isEmpty_iff.mp hnone])
  · rw [if_neg hnone]
    refine accounted_map (accounted_siblings (fun child hchild => ?_) n) _
    exact h child (List.mem_filter.mp hchild).1

/-- A tag needs three units more than the largest of its children. -/
theorem accounted_element {attributes children : List Markup}
    (hattributes : ∀ attr ∈ attributes, WellFormedAttribute attr)
    (h : AccountedValues v m children) (name : String) (selfClosing : Bool) (n : Nat) :
    Accounted (value v n (.element name selfClosing attributes children)) (n < 3 * (m + 1) + 2)
      (FaultyBelow (.element name selfClosing attributes children)) := by
  cases n with
  | zero => rw [value]; exact accounted_short (by omega)
  | succ n =>
      rw [value_element]
      have hshort : n < 3 * m + 4 → n + 1 < 3 * (m + 1) + 2 := by omega
      have hprepared := accounted_prepared attributes (n + 1 < 3 * (m + 1) + 2)
      have hfields : ∀ found, prepared attributes = .ok found → Accounted
          (collect (fun part => field v n (scope name) part.1 part.2) (numbered 1 found.1))
          (n + 1 < 3 * (m + 1) + 2) False := by
        intro found hfound
        rw [(prepared_eq_ok hfound).1]
        have hrendered := wellFormedAttribute_rendered hattributes
        have hfield : ∀ part ∈ numbered 1 (arranged (renderedAttributes attributes)),
            Accounted (field v n (scope name) part.1 part.2) (n + 1 < 3 * (m + 1) + 2) False := by
          intro part hpart
          have hattr := prepared_arranged hrendered part.2 (mem_numbered hpart)
          exact (accounted_field v n _ _ hattr).imp (by omega) Iff.rfl
        exact (accounted_collect hfield).imp id (by simp)
      have hplaced := (accounted_renderedPlaced h n).imp hshort Iff.rfl
      have hcontent := fun property =>
        (accounted_renderedContent h property n).imp hshort Iff.rfl
      refine (accounted_bind hprepared fun found hfound =>
        accounted_bind (hfields found hfound) fun _ _ =>
          accounted_bind hplaced fun _ _ => accounted_pure (hcontent found.2) _).imp id ?_
      rw [faultyBelow_iff, false_or, Faulty]
      constructor
      · rintro (hrefused | (hpath | ⟨path, child, hlast, hfaulty⟩) | ⟨child, hchild, hfaulty⟩)
        · exact Or.inl (Or.inl hrefused)
        · exact Or.inl (Or.inr hpath)
        · exact Or.inr ⟨child, .placed path hlast, hfaulty⟩
        · rw [contentChildren, List.mem_filter, Option.isNone_iff_eq_none,
            ownPath?_eq_none_iff] at hchild
          exact Or.inr ⟨child, .content hchild.1 hchild.2, hfaulty⟩
      · rintro ((hrefused | hpath) | ⟨child, hchild, hfaulty⟩)
        · exact Or.inl hrefused
        · exact Or.inr (Or.inl (Or.inl hpath))
        · cases hchild with
          | content hmem hnone =>
              refine Or.inr (Or.inr ⟨child, ?_, hfaulty⟩)
              rw [contentChildren, List.mem_filter, Option.isNone_iff_eq_none,
                ownPath?_eq_none_iff]
              exact ⟨hmem, hnone⟩
          | placed path hlast => exact Or.inr (Or.inl (Or.inr ⟨path, child, hlast, hfaulty⟩))

end Values

/-- Each of several siblings needs three units for every tag that nests in them and two
    more. -/
theorem accounted_values (v : Vocabulary) (values : List Markup)
    (hvalues : ∀ one ∈ values, WellFormed one) : AccountedValues v (nestingOf values) values := by
  induction values using siblings_induction with
  | hnil =>
      intro one hone
      simp at hone
  | hcons first rest ihchildren ihrest =>
      intro one hone n
      rw [nestingOf]
      rcases List.mem_cons.mp hone with rfl | hone
      · have hwell := hvalues one (by simp)
        rcases wellFormed_cases hwell with ⟨content, rfl⟩ | ⟨raw, rfl⟩ | ⟨code, rfl⟩ |
          ⟨name, selfClosing, attributes, children, rfl⟩
        · exact accounted_plain (fun _ => rfl) (by simp) n
        · exact accounted_plain (fun _ => rfl) (by simp) n
        · exact accounted_plain (fun _ => rfl) (by simp) n
        · have hchildren := ihchildren name selfClosing attributes children rfl
            (wellFormed_of_mem hwell.2.2.2)
          refine (accounted_element hwell.2.1 hchildren name selfClosing n).imp (fun hn => ?_)
            Iff.rfl
          rw [nesting]
          omega
      · have hrest := ihrest fun other hother => hvalues other (List.mem_cons_of_mem _ hother)
        exact (hrest one hone n).imp (by omega) Iff.rfl

/-! ## Generated Fusion -/

theorem rendered_faulty_iff (values : List Markup) :
    (∃ one, Rendered values one ∧ Faulty one) ↔ ∃ top ∈ values, FaultyBelow top := by
  constructor
  · rintro ⟨one, ⟨top, htop, hreach⟩, hfaulty⟩
    exact ⟨top, htop, one, hreach, hfaulty⟩
  · rintro ⟨top, htop, one, hreach, hfaulty⟩
    exact ⟨one, ⟨top, htop, hreach⟩, hfaulty⟩

/-- The three ways in which generation ends. The budget is enough for 328 tags that nest. -/
theorem generate_cases {s : Settings} {unit : String} (hunit : s.indentation = .text unit)
    (base : String) {values : List Markup} (hvalues : ∀ one ∈ values, WellFormed one) :
    (∃ output, s.generate (.text base) values = .ok output) ∧
        (¬ ∃ one, Rendered values one ∧ Faulty one) ∨
      s.generate (.text base) values = .error (.unrenderable .nestedTooDeeply) ∧
        328 < nestingOf values ∨
      (∃ fault, s.generate (.text base) values = .error (.unrenderable fault) ∧
        IsDirectiveFault fault) ∧ ∃ one, Rendered values one ∧ Faulty one := by
  have hsiblings := accounted_siblings (accounted_values s.vocabulary values hvalues) budget
  have hbudget : budget = 988 := rfl
  rw [generate_text hunit, rendered_faulty_iff]
  cases hrendered : siblings s.vocabulary budget values with
  | ok rendered => exact Or.inl ⟨⟨_, rfl⟩, hsiblings.ok hrendered⟩
  | error fault =>
      rcases hsiblings.error hrendered with ⟨rfl, hshort⟩ | ⟨hdirective, hrefused⟩
      · exact Or.inr (Or.inl ⟨rfl, by omega⟩)
      · exact Or.inr (Or.inr ⟨⟨fault, rfl, hdirective⟩, hrefused⟩)

/-- Generation from what was read fails exactly if rendering comes to a tag with a directive
    that has no text, or with a child whose path is none, and then it reports a directive. It
    gives a text in every other case, and no sibling that can be seen renders as nothing. Tags
    nest within the limits if there are at most 328, or if generation does not report that
    they nest too deeply. -/
theorem generate_fails_iff {limit : Nat} {source : List Char} {values : List Markup}
    (hread : readWithin limit source = .ok values) {s : Settings} {unit : String}
    (hunit : s.indentation = .text unit) (base : String)
    (hnesting : nestingOf values ≤ 328 ∨
      s.generate (.text base) values ≠ .error (.unrenderable .nestedTooDeeply)) :
    ((∃ fault, s.generate (.text base) values = .error (.unrenderable fault)) ↔
      ∃ one, Rendered values one ∧ Faulty one) ∧
    ((¬ ∃ one, Rendered values one ∧ Faulty one) →
      ∃ output, s.generate (.text base) values = .ok output) ∧
    (∀ failure, s.generate (.text base) values = .error failure →
      ∃ fault, failure = .unrenderable fault ∧ IsDirectiveFault fault) ∧
    (∀ others one n, one ∈ visible others → member s.vocabulary n one ≠ .ok none) := by
  have hvalues := wellFormed_of_mem (wellFormedAll_of_derives (derives_of_readWithin hread).1)
  have hnull : ∀ others one n, one ∈ visible others → member s.vocabulary n one ≠ .ok none := by
    intro others one n hone hnone
    cases n with
    | zero => simp [member] at hnone
    | succ n =>
        rw [member] at hnone
        simpa using value_isSome (ne_comment_of_mem_visible hone) hnone
  rcases generate_cases hunit base hvalues with ⟨⟨output, houtput⟩, hnone⟩ | ⟨hdeep, hmore⟩ |
    ⟨⟨fault, hfault, hdirective⟩, hsome⟩
  · rw [houtput]
    exact ⟨by simpa using hnone, fun _ => ⟨output, rfl⟩, by simp, hnull⟩
  · -- The budget has not run out.
    rcases hnesting with hless | hother
    · omega
    · exact absurd hdeep hother
  · rw [hfault]
    refine ⟨iff_of_true ⟨fault, rfl⟩ hsome, fun hnone => absurd hsome hnone, ?_, hnull⟩
    intro failure hfailure
    exact ⟨fault, (Except.error.inj hfailure).symm, hdirective⟩

/-- Two children ask for one path. The last is rendered and has a key that is no text, although
    one behind it is. -/
theorem generate_fails_iff_placed :
    ∃ fault, ({} : Settings).generate (.text "")
        [.element "p" false []
          [.element "a" true [.prop "@path" (.literal "x")] [],
            .element "b" true [.prop "@path" (.literal "x"), .prop "@key" (.expression "k"),
              .prop "@key" (.literal "k")] []]] = .error (.unrenderable fault) := by
  have hread : readWithin 2
      "<p><a @path='x'/><b @path='x' @key=\x7bk\x7d @key='k'/></p>".toList =
      .ok [.element "p" false []
        [.element "a" true [.prop "@path" (.literal "x")] [],
          .element "b" true [.prop "@path" (.literal "x"), .prop "@key" (.expression "k"),
            .prop "@key" (.literal "k")] []]] := by
    rfl
  refine (generate_fails_iff hread rfl "" (Or.inl (by decide))).1.mpr
    ⟨.element "b" true [.prop "@path" (.literal "x"), .prop "@key" (.expression "k"),
      .prop "@key" (.literal "k")] [], ⟨_, List.mem_singleton_self _, ?_⟩, ?_⟩
  · exact .single (.placed "x" rfl)
  · exact Or.inl ⟨.prop "@key" (.expression "k"), by simp, rfl⟩

/-! ## Markup in which all directives have texts -/

theorem textualDirectives_of_rendersChild {one child : Markup} (h : RendersChild one child)
    (hone : textualDirectives one = true) : textualDirectives child = true := by
  cases h with
  | content hchild _ =>
      rw [textualDirectives, Bool.and_eq_true] at hone
      exact textualDirectives_of_mem hone.2 child hchild
  | placed path hlast =>
      rw [textualDirectives, Bool.and_eq_true] at hone
      have hchild := (List.mem_filter.mp (List.mem_of_getLast? hlast)).1
      exact textualDirectives_of_mem hone.2 child hchild

theorem not_refused_of_textual {attributes : List Markup} (h : attributes.all isTextual = true) :
    ¬ Refused attributes := by
  rintro ⟨attr, hattr, hrefused⟩
  rw [List.all_eq_true.mp h attr hattr] at hrefused
  exact Bool.false_ne_true hrefused.symm

theorem not_faulty_of_textual {one : Markup} (h : textualDirectives one = true) : ¬ Faulty one := by
  cases one with
  | element name selfClosing attributes children =>
      rw [textualDirectives, Bool.and_eq_true] at h
      rintro (hrefused | ⟨child, hchild, hpath⟩)
      · exact not_refused_of_textual h.1 hrefused
      · -- The path of a child is one of its directives.
        have hinner := textualDirectives_of_mem h.2 child hchild
        cases child with
        | element name selfClosing attributes children =>
            rw [textualDirectives, Bool.and_eq_true] at hinner
            exact not_refused_of_textual hinner.1 (refused_of_refusedLast (by decide) hpath)
        | _ => exact False.elim hpath
  | _ => exact id

theorem succeeds_generate {values : List Markup} (hvalues : ∀ one ∈ values, WellFormed one)
    (htextual : textualDirectivesAll values = true) (hnesting : nestingOf values ≤ 328)
    (base : String) : ∃ output, ({} : Settings).generate (.text base) values = .ok output := by
  have hnone : ¬ ∃ one, Rendered values one ∧ Faulty one := by
    rintro ⟨one, ⟨top, htop, hreach⟩, hfaulty⟩
    have hone : textualDirectives one = true := by
      clear hfaulty
      induction hreach with
      | refl => exact textualDirectives_of_mem htextual top htop
      | tail _ hchild ih => exact textualDirectives_of_rendersChild hchild ih
    exact not_faulty_of_textual hone hfaulty
  rcases @generate_cases {} _ rfl base values hvalues with ⟨houtput, -⟩ | ⟨-, hmore⟩ | ⟨-, hsome⟩
  · exact houtput
  · omega
  · exact absurd hsome hnone

/-- With texts for its directives, markup that nests up to 328 tags is generated as its tree. -/
theorem generate_trees {values : List Markup} (hvalues : ∀ one ∈ values, WellFormed one)
    (htextual : textualDirectivesAll values = true) (hnesting : nestingOf values ≤ 328)
    (base : String) :
    ({} : Settings).generate (.text base) values =
      .ok ((joined defaultVocabulary (trees defaultVocabulary values)).layout
        (Indentation.mk (.text base) (.text "    ")).margin 0) := by
  rcases succeeds_generate hvalues htextual hnesting base with ⟨output, houtput⟩
  rcases generate_eq_ok houtput with ⟨rendered, hrendered, rfl⟩
  rw [houtput, (rendersTrees defaultVocabulary budget).siblings values hvalues rendered hrendered]

end Fusion

end Afx
