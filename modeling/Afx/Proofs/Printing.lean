import Afx.Proofs.Reading

/-!
# Printing Markup

Markup can be written back as a source. `printedAll` chooses one way to write
every value: one space before each attribute, double quotes around literals,
and a backslash before every character of a literal that would end it or
protect another. Not every list of values has such a source. Two texts next to
each other would be read as one, a comment cannot contain the mark that ends it,
and code has to leave the automaton that delimits it as it was. `WellFormedAll`
collects these conditions.

That a well-formed list can be read back is not proved about the reader. The
text that is printed derives the list in the grammar, and the grammar is what
the reader accepts. In the same way, being well-formed is read off derivations,
so every list that is ever read is well-formed and can be printed.

## Main definitions

* `printed`, `printedAll`: The source of a value and of a list of values.
* `WellFormed`, `WellFormedAll`: The values that have a source.
* `protectedChar`: A character between quotes of either kind.

## Theorems

* `siblings_induction`: Induction over siblings and the children among them.
* `quoted_protected`: Between quotes, protected characters stand for a text.
* `derives_printedAll`: A well-formed list is derived from its printed source.
* `wellFormedAll_of_derives`: What is derived is well-formed.
* `read_printedAll`: Reading undoes printing, and what is read can be printed.
-/

namespace Afx

namespace Markup

/-! ## The source of a value -/

/-- A character between double quotes. -/
def printedChar (c : Char) : List Char :=
  if c = '"' ∨ c = '\\' then ['\\', c] else [c]

/-- The value of a prop behind its equals sign. -/
def printedValue : Markup → List Char
  | .literal value => '"' :: value.toList.flatMap printedChar ++ ['"']
  | .expression code => '\x7b' :: code.toList ++ ['\x7d']
  | _ => []

/-- An attribute of a tag. -/
def printedAttribute : Markup → List Char
  | .prop name (.flag _) => name.toList
  | .prop name value => name.toList ++ '=' :: printedValue value
  | .spread (.expression code) => "\x7b...".toList ++ code.toList ++ ['\x7d']
  | _ => []

/-- The attributes of a tag, with one space before each. -/
def printedAttributes (attributes : List Markup) : List Char :=
  attributes.flatMap fun attr => ' ' :: printedAttribute attr

mutual

/-- The source of a value. -/
def printed : Markup → List Char
  | .comment content => "<!--".toList ++ content.toList ++ "-->".toList
  | .text raw => raw.toList
  | .expression code => '\x7b' :: code.toList ++ ['\x7d']
  | .element name selfClosing attributes children =>
    '<' :: name.toList ++ printedAttributes attributes ++
      if selfClosing then "/>".toList
      else ">".toList ++ printedAll children ++ "</".toList ++ name.toList ++ ">".toList
  | _ => []

/-- The source of a list of values, one after another. -/
def printedAll : List Markup → List Char
  | [] => []
  | value :: rest => printed value ++ printedAll rest

end

/-! ## The values that have a source -/

/-- An attribute that has a source: a prop whose value is a set flag, a literal or
    an expression, or the spread of an expression. -/
def WellFormedAttribute : Markup → Prop
  | .prop name (.flag value) => IsName name.toList ∧ value = true
  | .prop name (.literal _) => IsName name.toList
  | .prop name (.expression code) => IsName name.toList ∧ IsCode code.toList
  | .spread (.expression code) => IsCode code.toList
  | _ => False

/-- Whether a value is text. -/
def isText : Markup → Bool
  | .text _ => true
  | _ => false

mutual

/-- A value that has a source. -/
def WellFormed : Markup → Prop
  | .comment content => ¬ "-->".toList <:+: content.toList
  | .text raw => raw.toList ≠ [] ∧ ∀ c ∈ raw.toList, c ≠ '<' ∧ c ≠ '\x7b'
  | .expression code => IsCode code.toList
  | .element name selfClosing attributes children =>
    IsName name.toList ∧ (∀ attr ∈ attributes, WellFormedAttribute attr) ∧
      (selfClosing = true → children = []) ∧ WellFormedAll children
  | _ => False

/-- A list of values that has a source: each of them has one, and no two texts
    stand next to each other. -/
def WellFormedAll : List Markup → Prop
  | [] => True
  | value :: rest =>
    WellFormed value ∧ (isText value = true → ∀ next ∈ rest.head?, isText next = false) ∧
      WellFormedAll rest

end

/-- A prop with a source has a name, and its value is a set flag, a literal or an
    expression. -/
theorem wellFormedProp_cases {name : String} {value : Markup}
    (h : WellFormedAttribute (.prop name value)) :
    IsName name.toList ∧ (value = .flag true ∨ (∃ content, value = .literal content) ∨
      ∃ code, value = .expression code ∧ IsCode code.toList) := by
  cases value with
  | flag set =>
      rcases h with ⟨hname, rfl⟩
      exact ⟨hname, Or.inl rfl⟩
  | literal content => exact ⟨h, Or.inr (Or.inl ⟨content, rfl⟩)⟩
  | expression code => exact ⟨h.1, Or.inr (Or.inr ⟨code, rfl, h.2⟩)⟩
  | _ => exact False.elim h

theorem wellFormedAttribute_cases {attr : Markup} (h : WellFormedAttribute attr) :
    (∃ name value, attr = .prop name value) ∨
      ∃ code, attr = .spread (.expression code) ∧ IsCode code.toList := by
  cases attr with
  | prop name value => exact Or.inl ⟨name, value, rfl⟩
  | spread value =>
      cases value with
      | expression code => exact Or.inr ⟨code, rfl, h⟩
      | _ => exact False.elim h
  | _ => exact False.elim h

theorem wellFormed_cases {value : Markup} (h : WellFormed value) :
    (∃ content, value = .comment content) ∨ (∃ raw, value = .text raw) ∨
      (∃ code, value = .expression code) ∨ ∃ name selfClosing attributes children,
        value = .element name selfClosing attributes children := by
  cases value with
  | comment content => exact Or.inl ⟨content, rfl⟩
  | text raw => exact Or.inr (Or.inl ⟨raw, rfl⟩)
  | expression code => exact Or.inr (Or.inr (Or.inl ⟨code, rfl⟩))
  | element name selfClosing attributes children =>
      exact Or.inr (Or.inr (Or.inr ⟨name, selfClosing, attributes, children, rfl⟩))
  | _ => exact False.elim h

theorem wellFormed_of_mem {values : List Markup} (h : WellFormedAll values) :
    ∀ value ∈ values, WellFormed value := by
  induction values with
  | nil => simp
  | cons first rest ih =>
      intro value hvalue
      rcases List.mem_cons.mp hvalue with rfl | hvalue
      · exact h.1
      · exact ih h.2.2 value hvalue

/-- Siblings are a first value, whose children are siblings again if it is a tag,
    and the values behind it. -/
theorem siblings_induction {P : List Markup → Prop} (hnil : P [])
    (hcons : ∀ value rest,
      (∀ name selfClosing attributes children,
        value = .element name selfClosing attributes children → P children) →
      P rest → P (value :: rest)) (values : List Markup) : P values := by
  -- Children are no sublist of their tag's siblings, but they are smaller.
  induction hsize : sizeOf values using Nat.strongRecOn generalizing values with
  | ind n ih =>
      cases values with
      | nil => exact hnil
      | cons value rest =>
          refine hcons value rest ?_ (ih _ ?_ rest rfl)
          · rintro name selfClosing attributes children rfl
            refine ih _ ?_ children rfl
            rw [← hsize]
            simp only [List.cons.sizeOf_spec, Markup.element.sizeOf_spec]
            omega
          · rw [← hsize]
            simp only [List.cons.sizeOf_spec]
            omega

/-! ## What is printed derives what was printed -/

/-- A character inside of a quotation; the quote and the backslash are protected. -/
def protectedChar (quote c : Char) : List Char :=
  if c = quote ∨ c = '\\' then ['\\', c] else [c]

theorem quoted_protected (quote : Char) (value : List Char) :
    Quoted quote (value.flatMap (protectedChar quote)) value := by
  induction value with
  | nil => exact .nil
  | cons c value ih =>
      rw [List.flatMap_cons, protectedChar]
      by_cases hc : c = quote ∨ c = '\\'
      · rw [if_pos hc]
        exact .escaped c ih
      · rw [if_neg hc]
        rw [not_or] at hc
        exact .plain hc.1 hc.2 ih

theorem quoted_printed (value : List Char) : Quoted '"' (value.flatMap printedChar) value :=
  quoted_protected '"' value

theorem code_of_isCode {code : String} (h : IsCode code.toList) : Code code.toList :=
  (isCode_iff_code _).mp h

/-- An attribute that has a source is derived from it, in front of any text that
    a name does not go on into. -/
theorem derivesAttribute_printed {attr : Markup} (h : WellFormedAttribute attr)
    {after : List Char} (hends : EndsName after) (hbare : Unassigned after) :
    DerivesAttribute after (printedAttribute attr) attr := by
  have hnone : Blanks [] := by simp [Blanks]
  rcases wellFormedAttribute_cases h with ⟨name, value, rfl⟩ | ⟨code, rfl, hcode⟩
  · rcases wellFormedProp_cases h with ⟨hname, rfl | ⟨content, rfl⟩ | ⟨code, rfl, hcode⟩⟩
    · have hprop := DerivesAttribute.bare hname hends hbare
      rwa [String.ofList_toList] at hprop
    · have hvalue := DerivesValue.quoted (Or.inl rfl) (quoted_printed content.toList)
      have hprop := @DerivesAttribute.assigned after _ [] [] _ _ hname hnone hnone hvalue
      simpa [printedAttribute, printedValue] using hprop
    · have hvalue := DerivesValue.expression (code_of_isCode hcode)
      have hprop := @DerivesAttribute.assigned after _ [] [] _ _ hname hnone hnone hvalue
      simpa [printedAttribute, printedValue] using hprop
  · have hspread := @DerivesAttribute.spread after _ (code_of_isCode hcode)
    rwa [String.ofList_toList] at hspread

/-- A name starts neither with a blank nor with an equals sign. -/
theorem head_of_name {n s t : List Char} {c : Char} (hn : IsName n) (h : n ++ s = c :: t) :
    Text.isBlank c = false ∧ c ≠ '=' := by
  constructor
  · rcases hn.cons with ⟨d, rest, rfl, hd⟩
    rw [← (List.cons.inj h).1]
    exact isBlank_of_isNameChar d hd
  · rintro rfl
    exact hn.append_ne rfl s t h

/-- Neither does an attribute. -/
theorem unassigned_attribute {after a : List Char} {attr : Markup}
    (h : DerivesAttribute after a attr) {v : List Char} (hv : Blanks v) (rest : List Char) :
    Unassigned (v ++ (a ++ rest)) := by
  have hhead : ∀ c t, a ++ rest = c :: t → Text.isBlank c = false ∧ c ≠ '=' := by
    intro c t heq
    cases h with
    | spread _ =>
        simp only [String.reduceToList, List.cons_append, List.cons.injEq] at heq
        rw [← heq.1]
        decide
    | bare hn _ _ => exact head_of_name hn heq
    | assigned hn _ _ _ =>
        simp only [List.append_assoc] at heq
        exact head_of_name hn heq
  rw [unassigned_iff, skipBlank_append hv]
  intro t heq
  -- No blank comes first either, so nothing more is skipped.
  cases hs : a ++ rest with
  | nil => rw [hs] at heq; simp [Text.skipBlank] at heq
  | cons c u =>
      rw [hs, skipBlank_eq_self (by simpa using (hhead c u hs).1)] at heq
      exact (hhead c u hs).2 (List.cons.inj heq).1

/-- The attributes of a tag are printed with the blanks before them, and the
    grammar reckons blanks behind each attribute. -/
theorem derivesAttributes_printed {attributes : List Markup}
    (h : ∀ attr ∈ attributes, WellFormedAttribute attr) :
    ∃ w a, printedAttributes attributes = w ++ a ∧ Blanks w ∧ DerivesAttributes a attributes ∧
      EndsName (w ++ a) ∧ Unassigned (w ++ a) := by
  induction attributes with
  | nil => exact ⟨[], [], rfl, by simp [Blanks], .nil, by simp [EndsName], by simp [Unassigned]⟩
  | cons attr attributes ih =>
      rcases ih (fun other hother => h other (List.mem_cons_of_mem attr hother)) with
        ⟨w, a, hprinted, hw, ha, hends, hbare⟩
      -- A bare name ends at the space before the next attribute, or at the tag's end.
      have hattr := derivesAttribute_printed (h attr List.mem_cons_self) hends hbare
      have hspace : Blanks [' '] := by simp [Blanks]; decide
      refine ⟨[' '], printedAttribute attr ++ w ++ a, ?_, hspace, .cons hattr hw ha, ?_, ?_⟩
      · rw [printedAttributes, List.flatMap_cons, ← printedAttributes, hprinted]
        simp
      · exact endsName_blanks hspace (by simp)
      · rw [List.append_assoc]
        exact unassigned_attribute hattr hspace (w ++ a)

/-- What is printed starts with a tag or a brace unless it is text. -/
theorem endsText_printedAll {values : List Markup} (h : WellFormedAll values)
    (hnext : ∀ next ∈ values.head?, isText next = false) : EndsText (printedAll values) := by
  intro c hc
  cases values with
  | nil => simp [printedAll] at hc
  | cons value rest =>
      have hvalue : isText value = false := hnext value (by simp)
      rcases wellFormed_cases h.1 with ⟨content, rfl⟩ | ⟨raw, rfl⟩ | ⟨code, rfl⟩ |
        ⟨name, selfClosing, attributes, children, rfl⟩
      · exact Or.inl (by simpa [printedAll, printed] using hc.symm)
      · simp [isText] at hvalue
      · exact Or.inr (by simpa [printedAll, printed] using hc.symm)
      · exact Or.inl (by simpa [printedAll, printed] using hc.symm)

/-- A well-formed list of values is derived from its printed source. -/
theorem derives_printedAll (values : List Markup) (h : WellFormedAll values) :
    Derives (printedAll values) values := by
  induction values using siblings_induction with
  | hnil => exact .nil
  | hcons value rest hchildren ih =>
      rcases h with ⟨hvalue, hnext, hrest⟩
      have hmore := ih hrest
      rcases wellFormed_cases hvalue with ⟨content, rfl⟩ | ⟨raw, rfl⟩ | ⟨code, rfl⟩ |
        ⟨name, selfClosing, attributes, children, rfl⟩
      · have hcomment := Derives.comment hvalue hmore
        simpa [printedAll, printed] using hcomment
      · -- The next sibling is no text, so this text ends where it was printed to.
        have hends := endsText_printedAll hrest (hnext rfl)
        have htext := Derives.text hvalue.1 hvalue.2 hends hmore
        simpa [printedAll, printed] using htext
      · have hexpression := Derives.expression (code_of_isCode hvalue) hmore
        simpa [printedAll, printed] using hexpression
      · rcases hvalue with ⟨hname, hattributes, hself, hinner⟩
        rcases derivesAttributes_printed hattributes with ⟨w, a, hprinted, hw, ha, hends, -⟩
        cases selfClosing with
        | true =>
            have htag := Derives.selfClosing hname hends hw ha hmore
            simpa [printedAll, printed, hprinted, hself rfl] using htag
        | false =>
            have hnone : Blanks [] := by simp [Blanks]
            have hcontent := hchildren _ _ _ _ rfl hinner
            have htag := Derives.element hname hends hw ha hcontent hnone hmore
            simpa [printedAll, printed, hprinted] using htag

/-! ## What is derived can be printed -/

theorem wellFormedAttribute_of_derives {after a : List Char} {attr : Markup}
    (h : DerivesAttribute after a attr) : WellFormedAttribute attr := by
  cases h with
  | spread hcode => simpa [WellFormedAttribute] using (isCode_iff_code _).mpr hcode
  | bare hname _ _ => simpa [WellFormedAttribute] using hname
  | assigned hname _ _ hvalue =>
      cases hvalue with
      | quoted _ _ => simpa [WellFormedAttribute] using hname
      | expression hcode =>
          simpa [WellFormedAttribute] using And.intro hname ((isCode_iff_code _).mpr hcode)

theorem wellFormedAttributes_of_derives {a : List Char} {attributes : List Markup}
    (h : DerivesAttributes a attributes) : ∀ attr ∈ attributes, WellFormedAttribute attr := by
  induction h with
  | nil => simp
  | cons hfirst _ _ ih =>
      intro attr hattr
      rcases List.mem_cons.mp hattr with rfl | hattr
      · exact wellFormedAttribute_of_derives hfirst
      · exact ih attr hattr

/-- Text starts with a character that ends no text. -/
theorem isText_head_of_derives {s : List Char} {values : List Markup} (h : Derives s values)
    (hends : EndsText s) : ∀ next ∈ values.head?, isText next = false := by
  intro next hnext
  cases h with
  | nil => simp at hnext
  | @text t rest values hne ht _ _ =>
      cases t with
      | nil => exact absurd rfl hne
      | cons c t =>
          have hc := ht c (by simp)
          rcases hends c (by simp) with hopen | hbrace
          · exact absurd hopen hc.1
          · exact absurd hbrace hc.2
  | comment _ _ => simp at hnext; rw [← hnext]; rfl
  | expression _ _ => simp at hnext; rw [← hnext]; rfl
  | selfClosing _ _ _ _ _ => simp at hnext; rw [← hnext]; rfl
  | element _ _ _ _ _ _ _ => simp at hnext; rw [← hnext]; rfl

theorem wellFormedAll_of_derives {s : List Char} {values : List Markup} (h : Derives s values) :
    WellFormedAll values := by
  induction h with
  | nil => trivial
  | comment hfirst _ ih =>
      exact ⟨by simpa [WellFormed] using hfirst, by simp [isText], ih⟩
  | text hne ht hends hrest ih =>
      exact ⟨by simpa [WellFormed] using And.intro hne ht,
        fun _ => isText_head_of_derives hrest hends, ih⟩
  | expression hcode _ ih =>
      exact ⟨by simpa [WellFormed] using (isCode_iff_code _).mpr hcode, by simp [isText], ih⟩
  | selfClosing hname _ _ ha _ ih =>
      refine ⟨⟨?_, wellFormedAttributes_of_derives ha, fun _ => rfl, trivial⟩, by simp [isText], ih⟩
      rw [String.toList_ofList]
      exact hname
  | element hname _ _ ha _ _ _ ihinner ih =>
      refine ⟨⟨?_, wellFormedAttributes_of_derives ha, by simp, ihinner⟩, by simp [isText], ih⟩
      rw [String.toList_ofList]
      exact hname

/-- Reading undoes printing: a well-formed list that does not nest too deeply is
    read back from its source. And every list that is read from any source is
    well-formed, so it can be printed, and is read back from what is printed. -/
theorem read_printedAll (limit : Nat) :
    (∀ values, WellFormedAll values → nestingOf values ≤ limit →
      readWithin limit (printedAll values) = .ok values) ∧
    (∀ source values, readWithin limit source = .ok values →
      WellFormedAll values ∧ readWithin limit (printedAll values) = .ok values) := by
  have hback : ∀ values, WellFormedAll values → nestingOf values ≤ limit →
      readWithin limit (printedAll values) = .ok values :=
    fun values h hlimit => readWithin_of_derives (derives_printedAll values h) hlimit
  refine ⟨hback, fun source values hread => ?_⟩
  rcases derives_of_readWithin hread with ⟨hderives, hlimit⟩
  have hwell := wellFormedAll_of_derives hderives
  exact ⟨hwell, hback values hwell hlimit⟩

/-- A source that is not printed in this way, and its values. -/
theorem read_printedAll_tag :
    WellFormedAll [.element "p" false
      [.prop "a" (.literal "\"\\"), .spread (.expression "b"), .prop "c" (.flag true)]
      [.text "x", .element "br" true [] []]] ∧
    readWithin 2 (printedAll [.element "p" false
      [.prop "a" (.literal "\"\\"), .spread (.expression "b"), .prop "c" (.flag true)]
      [.text "x", .element "br" true [] []]]) =
        .ok [.element "p" false
          [.prop "a" (.literal "\"\\"), .spread (.expression "b"), .prop "c" (.flag true)]
          [.text "x", .element "br" true [] []]] :=
  (read_printedAll 2).2 "<p a= '\"\\\\' \x7b...b\x7dc >x<br /></p>".toList _ rfl

end Markup

end Afx
