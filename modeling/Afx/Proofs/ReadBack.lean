import Afx.Fusion.Conversion
import Afx.Proofs.Pieces
import Afx.Proofs.ValueGrammar

/-!
# Generated Fusion Reads Back

What is generated from a source is the layout of a tree, so it can be read back
if every name in the tree is a name and all code in it is code. Tags and props
that are read have names, and their code is delimited in the way Fusion delimits
it. The paths that are built from them are names as well. Only the texts of
directives come from elsewhere: they are literals and may hold anything, and a
text that is no name would make a path that cannot be read.

With directives that name things, then, the output denotes the tree that the
markup stands for, and nothing else.

## Main definitions

* `namedDirectives`, `namedDirectivesAll`: The texts of directives are names.
* `defaultVocabulary`: The names without settings of one's own.

## Theorems

* `readable_iff_madeOf`: A value can be read if it is made of names and code.
* `readable_trees`: The tree of markup that was read can be read.
* `denotes_generate`: Generated Fusion denotes the tree of its markup and nothing else.
-/

namespace Afx

namespace Fusion

open Markup

/-! ## Directives that name things -/

/-- The text of a directive is a name. -/
def isNamed : Markup → Bool
  | .prop name (.literal content) => !isDirective name || decide (IsName content.toList)
  | _ => true

mutual

/-- The texts of all directives in a value are names. -/
def namedDirectives : Markup → Bool
  | .element _ _ attributes children => attributes.all isNamed && namedDirectivesAll children
  | _ => true

/-- The texts of all directives in a list of values are names. -/
def namedDirectivesAll : List Markup → Bool
  | [] => true
  | value :: rest => namedDirectives value && namedDirectivesAll rest

end

theorem isName_of_directiveText? {attr : Markup} (h : isNamed attr = true) {text : String}
    (htext : directiveText? attr = some text) : IsName text.toList := by
  fun_cases directiveText? attr with
  | case1 name content hname =>
      rw [directiveText?, if_pos hname, Option.some.injEq] at htext
      rw [← htext]
      simpa [isNamed, hname] using h
  | case2 name content hname => simp [directiveText?, hname] at htext
  | case3 _ hother => simp [directiveText?] at htext

theorem isName_of_mem_directiveTextsAll {values : List Markup}
    (h : namedDirectivesAll values = true) :
    ∀ text ∈ directiveTextsAll values, IsName text.toList := by
  induction values using siblings_induction with
  | hnil => simp [directiveTextsAll]
  | hcons one rest ihchildren ihrest =>
      rw [namedDirectivesAll, Bool.and_eq_true] at h
      intro text htext
      rcases List.mem_append.mp htext with htext | htext
      · cases one with
        | element name selfClosing attributes children =>
            rw [namedDirectives, Bool.and_eq_true] at h
            rcases List.mem_append.mp htext with htext | htext
            · rcases List.mem_filterMap.mp htext with ⟨attr, hattr, htext⟩
              exact isName_of_directiveText? (List.all_eq_true.mp h.1.1 attr hattr) htext
            · exact ihchildren name selfClosing attributes children rfl h.1.2 text htext
        | _ => simp [directiveTexts] at htext
      · exact ihrest h.2 text htext

/-! ## Trees that can be read -/

mutual

/-- A value can be read if it is made of names and of code. -/
theorem readable_iff_madeOf :
    (value : Value) → (Readable value ↔
      MadeOf (fun name => IsName name.toList) (fun _ => True) (fun code => IsCode code.toList)
        value)
  | .text _ => Iff.rfl
  | .expression _ => Iff.rfl
  | .boolean _ => Iff.rfl
  | .object _ entries => and_congr_right fun _ => readableEntries_iff_madeOf entries

theorem readableEntries_iff_madeOf :
    (entries : List (String × Value)) → (ReadableEntries entries ↔
      EntriesMadeOf (fun name => IsName name.toList) (fun _ => True)
        (fun code => IsCode code.toList) entries)
  | [] => Iff.rfl
  | (_, value) :: rest => and_congr_right fun _ =>
      and_congr (readable_iff_madeOf value) (readableEntries_iff_madeOf rest)

end

/-- The value of siblings that are made of names and code can be read. -/
theorem readable_joined {v : Vocabulary} (hv : v.Named) {parts : List (Markup × Value)}
    (h : ∀ part ∈ parts, PartMadeOf (fun name => IsName name.toList) (fun _ => True)
      (fun code => IsCode code.toList) part) :
    Readable (joined v parts) :=
  (readable_iff_madeOf _).mpr (madeOf_joined (hv.suits fun _ hname => hname) h)

/-- Markup that was read is made of names and code, if its directives name things. -/
theorem readable_trees {v : Vocabulary} (hv : v.Named) (values : List Markup)
    (hvalues : ∀ one ∈ values, WellFormed one) (hnamed : namedDirectivesAll values = true) :
    ∀ part ∈ trees v values, PartMadeOf (fun name => IsName name.toList) (fun _ => True)
      (fun code => IsCode code.toList) part := by
  have hcodes : ∀ code ∈ codesAll values, IsCode code.toList := by
    intro code hcode
    rcases mem_codesAll.mp hcode with ⟨one, hone, hcode⟩
    have hsingle : WellFormedAll [one] := ⟨hvalues one hone, by simp, trivial⟩
    exact isCode_of_mem_codesAll hsingle (List.mem_append_left _ hcode)
  exact madeOf_trees (hv.suits fun _ hname => hname) values hvalues
    (isName_of_mem_directiveTextsAll hnamed) (fun _ _ => trivial) hcodes

/-! ## Generated Fusion -/

/-- The names without settings of one's own. -/
def defaultVocabulary : Vocabulary where
  tag := "Neos.Fusion:Tag"
  join := "Neos.Fusion:Join"
  dataStructure := "Neos.Fusion:DataStructure"
  children := "content"

theorem named_default : defaultVocabulary.Named where
  tag := by decide
  join := by decide
  dataStructure := by decide
  children := by decide

/-- Every level of the default indentation is a margin if the base is. -/
theorem margin_default {base : String} (hbase : Margin base.toList) (n : Nat) :
    Margin ((Indentation.mk (.text base) (.text "    ")).margin n).toList := by
  rw [Indentation.margin_text]
  induction n with
  | zero =>
      rw [Indentation.repeated, String.append_empty]
      exact hbase
  | succ n ih =>
      have hunit : Margin "    ".toList := by decide
      rw [Indentation.repeated, ← String.append_assoc, String.toList_append]
      intro c hc
      rcases List.mem_append.mp hc with hc | hc
      · exact ih c hc
      · exact hunit c hc

/-- What is generated at an indentation of texts is the layout of a rendering. -/
theorem generate_text {s : Settings} {unit : String} (hunit : s.indentation = .text unit)
    (base : String) (values : List Markup) :
    s.generate (.text base) values =
      ((siblings s.vocabulary budget values).mapError .unrenderable).map fun rendered =>
        rendered.layout (Indentation.mk (.text base) (.text unit)).margin 0 := by
  -- With an indentation that is text, guarding changes nothing but the fault.
  have hguard : ∀ nested, (Indentation.mk (.text base) (.text unit)).guarding nested
      (siblings s.vocabulary budget values) =
        (siblings s.vocabulary budget values).mapError .unrenderable := by
    intro nested
    cases nested <;> rfl
  simp only [Settings.generate, hunit, hguard]
  cases siblings s.vocabulary budget values with
  | error fault => rfl
  | ok rendered => exact Indentation.write_text base unit rendered

theorem generate_default (base : String) (values : List Markup) :
    ({} : Settings).generate (.text base) values =
      ((siblings defaultVocabulary budget values).mapError .unrenderable).map fun rendered =>
        rendered.layout (Indentation.mk (.text base) (.text "    ")).margin 0 :=
  generate_text rfl base values

theorem generate_eq_ok {base output : String} {values : List Markup}
    (h : ({} : Settings).generate (.text base) values = .ok output) :
    ∃ rendered, siblings defaultVocabulary budget values = .ok rendered ∧
      output = rendered.layout (Indentation.mk (.text base) (.text "    ")).margin 0 := by
  rw [generate_default] at h
  rcases map_eq_ok h with ⟨rendered, hrendered, houtput⟩
  cases hsiblings : siblings defaultVocabulary budget values with
  | error fault =>
      rw [hsiblings] at hrendered
      simp [Except.mapError] at hrendered
  | ok found =>
      rw [hsiblings, Except.mapError, Except.ok.injEq] at hrendered
      exact ⟨found, rfl, by rw [← houtput, hrendered]⟩

/-- Generated Fusion denotes the tree of its markup and nothing else. -/
theorem denotes_generate {limit : Nat} {source : List Char} {values : List Markup}
    (hread : readWithin limit source = .ok values) (hnamed : namedDirectivesAll values = true)
    {base output : String} (hbase : Margin base.toList)
    (hgenerate : ({} : Settings).generate (.text base) values = .ok output) (found : Value) :
    Denotes output.toList found ↔
      found = joined defaultVocabulary (trees defaultVocabulary values) := by
  have hvalues := wellFormed_of_mem (wellFormedAll_of_derives (derives_of_readWithin hread).1)
  rcases generate_eq_ok hgenerate with ⟨rendered, hrendered, rfl⟩
  have htree := (rendersTrees defaultVocabulary budget).siblings values hvalues rendered hrendered
  have hreadable : Readable rendered := by
    rw [htree]
    exact readable_joined named_default (readable_trees named_default values hvalues hnamed)
  rw [denotes_layout_iff (margin_default hbase) hreadable, htree]

set_option maxRecDepth 4000 in
/-- A tag with a prop on each side of a spread, a child with a path, content, and an image. -/
theorem denotes_generate_tag :
    ∃ output,
      ({} : Settings).convert (.text "\t")
        "<p a=\"'\" \x7b...b\x7d c>\n x<N:P @path='q'/><img/></p>" = .ok output ∧
      output = "Neos.Fusion:Tag \x7b\n\t    tagName = 'p'\n\t    attributes.a = '\\''\n" ++
        "\t    attributes.@apply.spread_1 = $\x7bb\x7d\n" ++
        "\t    attributes.@apply.spread_2 = Neos.Fusion:DataStructure \x7b\n" ++
        "\t        c = true\n\t    \x7d\n\t    q = N:P \x7b\n\t    \x7d\n" ++
        "\t    content = Neos.Fusion:Join \x7b\n\t        item_1 = 'x'\n" ++
        "\t        item_2 = Neos.Fusion:Tag \x7b\n\t            tagName = 'img'\n" ++
        "\t            selfClosingTag = true\n\t        \x7d\n\t    \x7d\n\t\x7d" ∧
      Denotes output.toList
        (.object "Neos.Fusion:Tag" [("tagName", .text "p"), ("attributes.a", .text "'"),
          ("attributes.@apply.spread_1", .expression "b"),
          ("attributes.@apply.spread_2",
            .object "Neos.Fusion:DataStructure" [("c", .boolean true)]),
          ("q", .object "N:P" []),
          ("content", .object "Neos.Fusion:Join" [("item_1", .text "x"),
            ("item_2", .object "Neos.Fusion:Tag" [("tagName", .text "img"),
              ("selfClosingTag", .boolean true)])])]) := by
  have hread : readWithin 2
      "<p a=\"'\" \x7b...b\x7d c>\n x<N:P @path='q'/><img/></p>".toList =
      .ok [.element "p" false
        [.prop "a" (.literal "'"), .spread (.expression "b"), .prop "c" (.flag true)]
        [.text "\n x", .element "N:P" true [.prop "@path" (.literal "q")] [],
          .element "img" true [] []]] := by
    rfl
  have hbase : Margin "\t".toList := by decide
  refine ⟨_, ?_, rfl, (denotes_generate hread rfl hbase ?_ _).mpr rfl⟩
  · decide +kernel
  · decide +kernel

end Fusion

end Afx
