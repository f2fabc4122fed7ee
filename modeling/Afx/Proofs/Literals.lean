import Afx.Proofs.Layout
import Afx.Proofs.Totality

/-!
# Texts Survive a Conversion

A text is written twice on its way. In markup it stands between quotes, where a
backslash is dropped and protects the character behind it, or between tags, where
it stands as it is. In Fusion it stands between single quotes, where an escaped
zero is the null character and a backslash else protects what is behind it. The two
ways of quoting agree in little more than the backslash, so a text with a
backslash in front of a zero, or one that ends in a backslash, would come out as
another text if either of them were off by one character.

Here a literal is read back by a function that knows nothing of how it was
written. It gives the text and the place where the literal ends, and neither
depends on what comes behind. The first quote that is not protected is then the
one that the text was closed with, so whatever stands in a text, it cannot end the
literal early, and no two texts have the same literal.

## Main definitions

* `literal?`: Reads a literal and gives what follows it.
* `entryLine`, `tagObject`: The lines of a tag, and the tag.
* `Carries`: A source becomes a tag whose last line has a literal that stands for a text.
* `titleSource`, `headingSource`: A text as a quoted value, and between tags.

## Theorems

* `literal?_quotedText`: A literal is read back, whatever follows.
* `convert_of_derives`: A source is converted to the layout of its tree.
* `carries_title`, `carries_heading`: Texts in markup are texts in Fusion.
* `texts_survive_conversion`: No text is lost or confused with another.
-/

namespace Afx

namespace Fusion

open Markup

/-! ## Reading literals -/

/-- The content of a literal, from behind its first quote, and what follows the literal. -/
def literalEnd? : List Char → Option (List Char × List Char)
  | [] => none
  | '\\' :: c :: rest =>
    (literalEnd? rest).map fun (content, after) =>
      ((if c = '0' then '\x00' else c) :: content, after)
  | c :: rest =>
    if c = '\'' then some ([], rest)
    else (literalEnd? rest).map fun (content, after) => (c :: content, after)

/-- The content of the literal that a text starts with, and what follows the literal. -/
def literal? : List Char → Option (List Char × List Char)
  | '\'' :: rest => literalEnd? rest
  | _ => none

/-- What stands for a content is read as it, and the next quote ends the literal. -/
theorem literalEnd?_of_literal {raw content : List Char} (h : Literal raw content)
    (rest : List Char) : literalEnd? (raw ++ '\'' :: rest) = some (content, rest) := by
  induction h with
  | nil => simp [literalEnd?]
  | plain hquote hslash _ ih => simp [literalEnd?, hquote, hslash, ih]
  | null _ ih => simp [literalEnd?, ih]
  | escaped hc _ ih => simp [literalEnd?, hc, ih]

/-- A text between quotes is read back, whatever follows. -/
theorem literal?_quotedText (content : String) (rest : List Char) :
    literal? ((quotedText content).toList ++ rest) = some (content.toList, rest) := by
  have hread := literalEnd?_of_literal (literal_escaped content.toList) rest
  simpa [quotedText, literal?] using hread

/-! ## Converting -/

/-- A text that no blank starts or ends is trimmed already. -/
theorem trim_eq_self {s : List Char} (hfirst : ∀ c ∈ s.head?, Text.isBlank c = false)
    (hlast : ∀ c ∈ s.getLast?, Text.isBlank c = false) : Text.trim s = s := by
  rw [Text.trim, skipBlank_eq_self hfirst, skipBlank_eq_self (by simpa using hlast)]
  exact List.reverse_reverse s

theorem trim_tags {front back : List Char} (hfront : front.head? = some '<')
    (hback : back.getLast? = some '>') (inner : List Char) :
    Text.trim (front ++ inner ++ back) = front ++ inner ++ back := by
  refine trim_eq_self ?_ ?_
  · intro c hc
    rw [List.append_assoc, List.head?_append, hfront] at hc
    rw [← Option.mem_some_iff.mp hc]
    decide
  · intro c hc
    rw [List.getLast?_append, hback] at hc
    rw [← Option.mem_some_iff.mp hc]
    decide

/-- A source without blanks around it is converted to the layout of its tree. -/
theorem convert_of_derives {source : String} {values : List Markup}
    (h : Derives source.toList values) (htrim : Text.trim source.toList = source.toList)
    (htextual : textualDirectivesAll values = true) (hnesting : nestingOf values ≤ 328)
    (base : String) :
    ({} : Settings).convert (.text base) source =
      .ok ((joined defaultVocabulary (trees defaultVocabulary values)).layout
        (Indentation.mk (.text base) (.text "    ")).margin 0) := by
  have hread : read source.toList = .ok values :=
    readWithin_of_derives h (Nat.le_trans hnesting (by decide))
  have hvalues := wellFormed_of_mem (wellFormedAll_of_derives h)
  rw [Settings.convert, htrim, hread]
  exact generate_trees hvalues htextual hnesting base

/-- A line that assigns something, one level behind the base. -/
def entryLine (base path text : String) : String :=
  base ++ "    " ++ path ++ " = " ++ text ++ "\n"

/-- A tag with the given lines, ending behind the base. -/
def tagObject (base lines : String) : String :=
  "Neos.Fusion:Tag" ++ " \x7b\n" ++ lines ++ base ++ "\x7d"

theorem entryLine_inj {base path text text' : String}
    (h : entryLine base path text = entryLine base path text') : text = text' :=
  (String.append_right_inj _).mp ((String.append_left_inj _).mp h)

theorem tagObject_inj {base lines lines' : String}
    (h : tagObject base lines = tagObject base lines') : lines = lines' :=
  (String.append_right_inj _).mp ((String.append_left_inj _).mp ((String.append_left_inj _).mp h))

theorem layoutEntries_cons (base path : String) (value : Value) (rest : List (String × Value)) :
    Value.layoutEntries (Indentation.mk (.text base) (.text "    ")).margin 1
        ((path, value) :: rest) =
      entryLine base path (value.layout (Indentation.mk (.text base) (.text "    ")).margin 1) ++
        Value.layoutEntries (Indentation.mk (.text base) (.text "    ")).margin 1 rest := by
  rw [Value.layoutEntries, Indentation.margin_text, Indentation.repeated, Indentation.repeated,
    String.empty_append]
  rfl

theorem layoutEntries_singleton (base path : String) (value : Value) :
    Value.layoutEntries (Indentation.mk (.text base) (.text "    ")).margin 1 [(path, value)] =
      entryLine base path
        (value.layout (Indentation.mk (.text base) (.text "    ")).margin 1) := by
  rw [layoutEntries_cons, Value.layoutEntries]
  exact String.append_empty

theorem layout_tag (base : String) (entries : List (String × Value)) :
    (Value.object "Neos.Fusion:Tag" entries).layout
        (Indentation.mk (.text base) (.text "    ")).margin 0 =
      tagObject base
        (Value.layoutEntries (Indentation.mk (.text base) (.text "    ")).margin 1 entries) := by
  rw [Value.layout, Indentation.margin_text_zero]
  rfl

/-- The source becomes a tag whose last line assigns a literal to the path, and the literal is
    read as the text and comes to its end, whatever follows. -/
def Carries (base source lines path content : String) : Prop :=
  ∃ literal, ({} : Settings).convert (.text base) source =
      .ok (tagObject base (lines ++ entryLine base path literal)) ∧
    ∀ rest, literal? (literal.toList ++ rest) = some (content.toList, rest)

/-- Sources that carry different texts at one place are converted to different Fusion. -/
theorem Carries.content_eq {base source source' lines path content content' : String}
    (h : Carries base source lines path content)
    (h' : Carries base source' lines path content')
    (hsame : ({} : Settings).convert (.text base) source =
      ({} : Settings).convert (.text base) source') : content = content' := by
  rcases h with ⟨literal, hconvert, hread⟩
  rcases h' with ⟨literal', hconvert', hread'⟩
  rw [hconvert, hconvert', Except.ok.injEq] at hsame
  have hliteral := entryLine_inj ((String.append_right_inj lines).mp (tagObject_inj hsame))
  have hrest := hread []
  rw [hliteral, hread', Option.some.injEq, Prod.mk.injEq] at hrest
  exact String.toList_inj.mp hrest.1.symm

/-! ## A quoted value -/

/-- A tag with a text as the value of its title. -/
def titleSource (quote : Char) (content : String) : String :=
  String.ofList ("<h1 title=".toList ++
    quote :: content.toList.flatMap (protectedChar quote) ++ [quote] ++ "/>".toList)

/-- The lines that are generated in front of the title. -/
def titleLines (base : String) : String :=
  entryLine base "tagName" "'h1'" ++ entryLine base "selfClosingTag" "true"

theorem toList_titleSource (quote : Char) (content : String) :
    (titleSource quote content).toList = "<h1 title=".toList ++
      quote :: content.toList.flatMap (protectedChar quote) ++ [quote] ++ "/>".toList :=
  String.toList_ofList

theorem derives_title {quote : Char} (hquote : quote = '"' ∨ quote = '\'') (content : String) :
    Derives (titleSource quote content).toList
      [.element "h1" true [.prop "title" (.literal content)] []] := by
  have hnone : Blanks [] := by simp [Blanks]
  have hspace : Blanks [' '] := by simp [Blanks, Text.isBlank]
  have hvalue := DerivesValue.quoted hquote (quoted_protected quote content.toList)
  rw [String.ofList_toList] at hvalue
  have hprop : DerivesAttribute ([] ++ []) _ _ :=
    DerivesAttribute.assigned (by decide : IsName ['t', 'i', 't', 'l', 'e']) hnone hnone hvalue
  have hderives := Derives.selfClosing (by decide : IsName ['h', '1']) (endsName_space _) hspace
    (DerivesAttributes.cons hprop hnone .nil) .nil
  simp only [List.append_nil] at hderives
  rw [toList_titleSource]
  exact hderives

theorem trim_title (quote : Char) (content : String) :
    Text.trim (titleSource quote content).toList = (titleSource quote content).toList := by
  rw [toList_titleSource]
  exact trim_tags rfl rfl _

theorem carries_title {quote : Char} (hquote : quote = '"' ∨ quote = '\'') (base content : String) :
    Carries base (titleSource quote content) (titleLines base) "attributes.title" content := by
  refine ⟨quotedText content, ?_, literal?_quotedText content⟩
  have htree : joined defaultVocabulary (trees defaultVocabulary
      [.element "h1" true [.prop "title" (.literal content)] []]) =
        .object "Neos.Fusion:Tag" [("tagName", .text "h1"), ("selfClosingTag", .boolean true),
          ("attributes.title", .text content)] :=
    rfl
  have hname : quotedText "h1" = "'h1'" := rfl
  rw [convert_of_derives (derives_title hquote content) (trim_title quote content) rfl
    (by simp [nestingOf, nesting]), htree, layout_tag, layoutEntries_cons, layoutEntries_cons,
    layoutEntries_singleton, Value.layout, Value.layout, Value.layout, hname, if_pos rfl]
  simp only [titleLines, String.append_assoc]

/-! ## A text between tags -/

/-- A tag with a text as its content. -/
def headingSource (content : String) : String :=
  String.ofList ("<h1>".toList ++ content.toList ++ "</h1>".toList)

/-- The line that is generated in front of the content. -/
def headingLines (base : String) : String :=
  entryLine base "tagName" "'h1'"

/-- A text that a tag can hold on one line, with nothing else in it. -/
def IsHeading (content : String) : Prop :=
  content ≠ "" ∧ ∀ c ∈ content.toList, c ≠ '<' ∧ c ≠ '\x7b' ∧ c ≠ '\n'

theorem toList_headingSource (content : String) :
    (headingSource content).toList = "<h1>".toList ++ content.toList ++ "</h1>".toList :=
  String.toList_ofList

theorem derives_heading {content : String} (h : IsHeading content) :
    Derives (headingSource content).toList [.element "h1" false [] [.text content]] := by
  have hnone : Blanks [] := by simp [Blanks]
  have hinner : Derives (content.toList ++ []) [.text (String.ofList content.toList)] := by
    refine .text ?_ ?_ ?_ .nil
    · simpa using h.1
    · intro c hc
      exact ⟨(h.2 c hc).1, (h.2 c hc).2.1⟩
    · simp [EndsText]
  rw [String.ofList_toList, List.append_nil] at hinner
  have hderives := Derives.element (by decide : IsName ['h', '1']) (by simp [EndsName]) hnone .nil
    hinner hnone .nil
  simp only [List.append_nil, List.append_assoc] at hderives
  rw [toList_headingSource, List.append_assoc]
  exact hderives

theorem trim_heading (content : String) :
    Text.trim (headingSource content).toList = (headingSource content).toList := by
  rw [toList_headingSource]
  exact trim_tags rfl rfl _

theorem carries_heading {content : String} (h : IsHeading content) (base : String) :
    Carries base (headingSource content) (headingLines base) "content" content := by
  refine ⟨quotedText content, ?_, literal?_quotedText content⟩
  have hline : normalise content = content :=
    normalise_of_line fun hmem => (h.2 '\n' hmem).2.2 rfl
  have htext : trees defaultVocabulary [.text content] = [(.text content, .text content)] := by
    simp [trees, tree, hline, h.1]
  have htree : joined defaultVocabulary (trees defaultVocabulary
      [.element "h1" false [] [.text content]]) =
        .object "Neos.Fusion:Tag" [("tagName", .text "h1"), ("content", .text content)] := by
    rw [trees, tree, htext]
    rfl
  have hname : quotedText "h1" = "'h1'" := rfl
  rw [convert_of_derives (derives_heading h) (trim_heading content) rfl
    (by simp [nestingOf, nesting]), htree, layout_tag, layoutEntries_cons,
    layoutEntries_singleton, Value.layout, Value.layout, hname]
  rfl

/-! ## Whole conversions -/

/-- A quoted value and a text between tags are converted to literals that are read back as they
    were, so different texts are never converted to the same Fusion. -/
theorem texts_survive_conversion (base : String) :
    (∀ quote content, quote = '"' ∨ quote = '\'' →
      Carries base (titleSource quote content) (titleLines base) "attributes.title" content) ∧
    (∀ content, IsHeading content →
      Carries base (headingSource content) (headingLines base) "content" content) ∧
    (∀ quote quote' content content', quote = '"' ∨ quote = '\'' → quote' = '"' ∨ quote' = '\'' →
      ({} : Settings).convert (.text base) (titleSource quote content) =
        ({} : Settings).convert (.text base) (titleSource quote' content') →
      content = content') ∧
    (∀ content content', IsHeading content → IsHeading content' →
      ({} : Settings).convert (.text base) (headingSource content) =
        ({} : Settings).convert (.text base) (headingSource content') →
      content = content') := by
  refine ⟨?_, ?_, ?_, ?_⟩
  · intro quote content hquote
    exact carries_title hquote base content
  · intro content h
    exact carries_heading h base
  · intro quote quote' content content' hquote hquote'
    exact (carries_title hquote base content).content_eq (carries_title hquote' base content')
  · intro content content' h h'
    exact (carries_heading h base).content_eq (carries_heading h' base)

/-- A backslash in front of a zero, a null character, both quotes, and a backslash at the end. -/
theorem texts_survive_conversion_marks :
    titleSource '\'' "\\0\x00'\"\\" = "<h1 title='\\\\0\x00\\'\"\\\\'/>" ∧
    Carries "\t" (titleSource '\'' "\\0\x00'\"\\") (titleLines "\t") "attributes.title"
      "\\0\x00'\"\\" ∧
    headingSource "\\0'\\" = "<h1>\\0'\\</h1>" ∧
    Carries "\t" (headingSource "\\0'\\") (headingLines "\t") "content" "\\0'\\" := by
  rcases texts_survive_conversion "\t" with ⟨htitle, hheading, -⟩
  exact ⟨rfl, htitle '\'' _ (Or.inr rfl), rfl, hheading _ ⟨by simp, by simp⟩⟩

end Fusion

end Afx
