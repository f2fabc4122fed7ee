import Afx.Proofs.Layout
import Afx.Proofs.ReadBack
import Afx.Text.Segments

/-!
# The Base of an Indentation

Fusion is generated at the indentation of the place it is put in. The first line
goes behind what stands there already, and every other line starts with the base.
So generating at a base should come to generating without one and indenting the
outcome, as an editor does. That is not how it is done: the base is part of the
margin of every level, and each line takes its margin from the level it belongs
to. An entry of an object is one level deeper than the object, and its closing
brace is not.

The two agree if no piece of the tree brings line feeds of its own, because those
are indented afterwards and not by the layout. Names are on one line, and what is
left of a text between tags is as well, however many lines the text had. Literals
and code may have line feeds, so it is asked of them that they have none.

One equation carries the induction. Laid out at a base, entries have it at the start
of every line. Indented afterwards, they have it behind every line feed: not at
their first line, but behind their last, where the margin of the closing brace
follows. The two differ by one base, which moves from one end of the entries to the
other.

## Main definitions

* `OneLine`: A text without line feeds.
* `reindented`: A text with a base behind every line feed.
* `Settings.OneLine`: What is taken from the settings has no line feeds.

## Theorems

* `layout_reindented`: Laying out at a base is laying out without one and indenting.
* `layout_ends`, `getLast?_layout`: How the text of a value ends.
* `oneLine_siblings`: Markup without line feeds is rendered to pieces on one line.
* `generate_reindented`: The base of what is generated, and its last line.
-/

namespace Afx

namespace Fusion

open Markup

/-! ## Lines -/

/-- A text without line feeds. -/
def OneLine (text : String) : Prop :=
  '\n' ∉ text.toList

instance (text : String) : Decidable (OneLine text) :=
  inferInstanceAs (Decidable ('\n' ∉ text.toList))

/-- Characters with the base behind every line feed. -/
def reindentedChars (base s : List Char) : List Char :=
  s.flatMap fun c => if c = '\n' then c :: base else [c]

/-- A text with the base behind every line feed. -/
def reindented (base text : String) : String :=
  String.ofList (reindentedChars base.toList text.toList)

theorem reindentedChars_append (base s t : List Char) :
    reindentedChars base (s ++ t) = reindentedChars base s ++ reindentedChars base t :=
  List.flatMap_append

theorem reindentedChars_of_not_mem {s : List Char} (h : '\n' ∉ s) (base : List Char) :
    reindentedChars base s = s := by
  induction s with
  | nil => rfl
  | cons c s ih =>
      rw [List.mem_cons, not_or] at h
      simpa [reindentedChars, Ne.symm h.1] using ih h.2

theorem oneLine_of_isName {name : String} (h : IsName name.toList) : OneLine name := by
  intro hmem
  have hname := h.2 _ hmem
  revert hname
  decide

theorem oneLine_append {s t : String} : OneLine (s ++ t) ↔ OneLine s ∧ OneLine t := by
  simp only [OneLine, String.toList_append, List.mem_append, not_or]

theorem oneLine_repeated {unit : String} (h : OneLine unit) (n : Nat) :
    OneLine (Indentation.repeated unit n) := by
  induction n with
  | zero => simp [OneLine, Indentation.repeated]
  | succ n ih => exact oneLine_append.mpr ⟨ih, h⟩

/-- Only a line feed is escaped to a line feed. -/
theorem eq_of_mem_escaped {c : Char} (h : '\n' ∈ escaped c) : c = '\n' := by
  unfold escaped at h
  split_ifs at h with hquote hnull
  · simp only [List.mem_cons, List.not_mem_nil, or_false] at h
    exact (h.resolve_left (by decide)).symm
  · simp at h
  · exact (List.mem_singleton.mp h).symm

theorem oneLine_quotedText {content : String} (h : OneLine content) :
    OneLine (quotedText content) := by
  refine oneLine_append.mpr ⟨oneLine_append.mpr ⟨by decide, ?_⟩, by decide⟩
  rw [OneLine, String.toList_ofList, List.mem_flatMap]
  rintro ⟨c, hc, hmem⟩
  rw [eq_of_mem_escaped hmem] at hc
  exact h hc

theorem oneLine_quotedCode {code : String} (h : OneLine code) : OneLine (quotedCode code) :=
  oneLine_append.mpr ⟨oneLine_append.mpr ⟨by decide, h⟩, by decide⟩

/-! ## Layout at a base -/

section Layout

variable {unit : String} (hunit : OneLine unit) (base : String)

include hunit

mutual

/-- Laying out a value at a base is laying it out without one and indenting the outcome. -/
theorem layout_reindented : (value : Value) → MadeOf OneLine OneLine OneLine value →
    (level : Nat) → (value.layout (Indentation.mk (.text base) (.text unit)).margin level).toList =
      reindentedChars base.toList
        (value.layout (Indentation.mk (.text "") (.text unit)).margin level).toList
  | .text content, h, level => by
      rw [Value.layout, Value.layout, reindentedChars_of_not_mem (oneLine_quotedText h)]
  | .expression code, h, level => by
      rw [Value.layout, Value.layout, reindentedChars_of_not_mem (oneLine_quotedCode h)]
  | .boolean value, _, level => by
      rw [Value.layout, Value.layout, reindentedChars_of_not_mem (by cases value <;> decide)]
  | .object name entries, h, level => by
      have hopen : reindentedChars base.toList " \x7b\n".toList =
          " \x7b\n".toList ++ base.toList := by
        simp [reindentedChars]
      have hclose : reindentedChars base.toList "\x7d".toList = "\x7d".toList :=
        reindentedChars_of_not_mem (by decide) _
      simp only [Value.layout, Indentation.margin_text, String.empty_append, String.toList_append,
        reindentedChars_append, reindentedChars_of_not_mem h.1, hopen, hclose,
        reindentedChars_of_not_mem (oneLine_repeated hunit level), List.append_assoc]
      -- The line feed behind the opening brace gets the base that the entries start with.
      rw [layoutEntries_reindented entries h.2]

/-- Every line of the entries starts with the base. Indented afterwards, they have it behind
    every line instead, so it moves from behind the entries to the front. -/
theorem layoutEntries_reindented : (entries : List (String × Value)) →
    EntriesMadeOf OneLine OneLine OneLine entries → (level : Nat) → (after : List Char) →
      (Value.layoutEntries (Indentation.mk (.text base) (.text unit)).margin level
          entries).toList ++ (base.toList ++ after) =
        base.toList ++ (reindentedChars base.toList
          (Value.layoutEntries (Indentation.mk (.text "") (.text unit)).margin level
            entries).toList ++ after)
  | [], _, level, after => by simp [Value.layoutEntries, reindentedChars]
  | (path, value) :: rest, h, level, after => by
      have hassign : reindentedChars base.toList " = ".toList = " = ".toList :=
        reindentedChars_of_not_mem (by decide) _
      have hfeed : reindentedChars base.toList "\n".toList = "\n".toList ++ base.toList := by
        simp [reindentedChars]
      simp only [Value.layoutEntries, Indentation.margin_text, String.empty_append,
        String.toList_append, reindentedChars_append, reindentedChars_of_not_mem h.1, hassign,
        hfeed, reindentedChars_of_not_mem (oneLine_repeated hunit level),
        layout_reindented value h.2.1, List.append_assoc]
      -- The line feed of this entry gets the base that the next one starts with.
      rw [layoutEntries_reindented rest h.2.2]

end

end Layout

/-- Behind a line feed, entries end with one, even if there are none. -/
theorem layoutEntries_ends (margin : Nat → String) (level : Nat)
    (entries : List (String × Value)) :
    ∃ front, '\n' :: (Value.layoutEntries margin level entries).toList = front ++ ['\n'] := by
  induction entries with
  | nil => exact ⟨[], by simp [Value.layoutEntries]⟩
  | cons entry rest ih =>
      rcases entry with ⟨path, value⟩
      rcases ih with ⟨front, hfront⟩
      refine ⟨'\n' :: ((margin level).toList ++ path.toList ++ " = ".toList ++
        (value.layout margin level).toList) ++ front, ?_⟩
      rw [List.append_assoc, ← hfront]
      simp [Value.layoutEntries]

/-- What is on more than one line is an object, with its closing brace on a line of its own. -/
theorem layout_ends (margin : Nat → String) {value : Value}
    (h : MadeOf OneLine OneLine OneLine value) (level : Nat) :
    OneLine (value.layout margin level) ∨ ∃ front, (value.layout margin level).toList =
      front ++ '\n' :: ((margin level).toList ++ ['\x7d']) := by
  cases value with
  | text content => exact Or.inl (oneLine_quotedText h)
  | expression code => exact Or.inl (oneLine_quotedCode h)
  | boolean value =>
      refine Or.inl ?_
      rw [Value.layout]
      cases value <;> decide
  | object name entries =>
      refine Or.inr ?_
      rcases layoutEntries_ends margin (level + 1) entries with ⟨front, hfront⟩
      refine ⟨name.toList ++ [' ', '\x7b'] ++ front, ?_⟩
      calc (Value.layout margin level (.object name entries)).toList
          = name.toList ++ [' ', '\x7b'] ++
              ('\n' :: (Value.layoutEntries margin (level + 1) entries).toList) ++
                ((margin level).toList ++ ['\x7d']) := by simp [Value.layout]
        _ = name.toList ++ [' ', '\x7b'] ++ front ++
              '\n' :: ((margin level).toList ++ ['\x7d']) := by
          rw [hfront]
          simp

/-- The text of a value ends with a quote, a brace or a letter. -/
theorem getLast?_layout (margin : Nat → String) (level : Nat) (value : Value) :
    (value.layout margin level).toList.getLast? ≠ some '\n' := by
  cases value with
  | text content =>
      rw [Value.layout, quotedText, String.toList_append, List.getLast?_append]
      simp
  | expression code =>
      rw [Value.layout, quotedCode, String.toList_append, List.getLast?_append]
      simp
  | boolean value =>
      rw [Value.layout]
      cases value <;> decide
  | object name entries =>
      rw [Value.layout, String.toList_append, List.getLast?_append]
      simp

/-! ## Generated Fusion -/

/-- The unit of indentation is a text without line feeds, and the names that the settings
    choose have none when they are written out. -/
structure Settings.OneLine (s : Settings) (unit : String) : Prop where
  indentation : s.indentation = .text unit
  unit : Fusion.OneLine unit
  tag : Fusion.OneLine s.vocabulary.tag
  join : Fusion.OneLine s.vocabulary.join
  dataStructure : Fusion.OneLine s.vocabulary.dataStructure
  children : Fusion.OneLine s.vocabulary.children

theorem Settings.OneLine.suits {s : Settings} {unit : String} (h : s.OneLine unit) :
    s.vocabulary.Suits Fusion.OneLine Fusion.OneLine where
  name := fun _ => oneLine_of_isName
  tag := h.tag
  join := h.join
  dataStructure := h.dataStructure
  children := h.children
  tagName := fun _ => oneLine_of_isName
  shown := not_mem_normalise

/-- Source without line feeds in its code and its literals is rendered to pieces on one line. -/
theorem oneLine_siblings {limit : Nat} {source : List Char} {values : List Markup}
    (hread : readWithin limit source = .ok values)
    (hcodes : ∀ code ∈ codesAll values, OneLine code)
    (hliterals : ∀ content ∈ literalsAll values, OneLine content) {v : Vocabulary}
    (hv : v.Suits OneLine OneLine) {budget : Nat} {rendered : Value}
    (h : siblings v budget values = .ok rendered) : MadeOf OneLine OneLine OneLine rendered := by
  have hvalues := wellFormed_of_mem (wellFormedAll_of_derives (derives_of_readWithin hread).1)
  have htexts : ∀ text ∈ directiveTextsAll values, OneLine text := fun text htext =>
    hliterals text (mem_literalsAll_of_directive htext)
  rw [(rendersTrees v budget).siblings values hvalues rendered h]
  exact madeOf_joined hv (madeOf_trees hv values hvalues htexts hliterals hcodes)

/-- Generating at a base is generating without one and putting the base behind every line feed;
    both fail alike. What is generated never ends with a line feed, and on more than one line
    it ends with a line that is the base and a closing brace. -/
theorem generate_reindented {limit : Nat} {source : List Char} {values : List Markup}
    (hread : readWithin limit source = .ok values)
    (hcodes : ∀ code ∈ codesAll values, OneLine code)
    (hliterals : ∀ content ∈ literalsAll values, OneLine content) {s : Settings} {unit : String}
    (hs : s.OneLine unit) (base : String) :
    s.generate (.text base) values = (s.generate (.text "") values).map (reindented base) ∧
    ∀ output, s.generate (.text base) values = .ok output →
      output.toList.getLast? ≠ some '\n' ∧
      (OneLine base → ¬ OneLine output →
        (Text.segments '\n' output.toList).getLast? = some (base.toList ++ ['\x7d'])) := by
  have hpieces : ∀ rendered, siblings s.vocabulary budget values = .ok rendered →
      MadeOf OneLine OneLine OneLine rendered := fun rendered hrendered =>
    oneLine_siblings hread hcodes hliterals hs.suits hrendered
  rw [generate_text hs.indentation, generate_text hs.indentation]
  cases hrendered : siblings s.vocabulary budget values with
  | error fault => exact ⟨rfl, fun output h => by cases h⟩
  | ok rendered =>
      have hmade := hpieces rendered hrendered
      refine ⟨?_, ?_⟩
      · have hlayout := layout_reindented hs.unit base rendered hmade 0
        have hsame : rendered.layout (Indentation.mk (.text base) (.text unit)).margin 0 =
            reindented base
              (rendered.layout (Indentation.mk (.text "") (.text unit)).margin 0) := by
          rw [reindented, ← hlayout, String.ofList_toList]
        exact congrArg Except.ok hsame
      · intro output houtput
        rw [← Except.ok.inj houtput]
        refine ⟨getLast?_layout _ 0 rendered, fun hbase hlines => ?_⟩
        have hends := (layout_ends (Indentation.mk (.text base) (.text unit)).margin hmade
          0).resolve_left hlines
        rcases hends with ⟨front, hfront⟩
        have hlast : '\n' ∉ base.toList ++ ['\x7d'] := by simpa [OneLine] using hbase
        rw [hfront, Indentation.margin_text_zero, Text.getLast?_segments hlast]

set_option maxRecDepth 4000 in
/-- Settings of one's own, a text on two lines, and an object inside of another. -/
theorem generate_reindented_nested :
    let s : Settings := { indentation := .text " ", tagPrototype := .text "T" }
    ∃ values output, readWithin 1 "<p a='b'>\nx\x7bc\x7d</p>".toList = .ok values ∧
      "c" ∈ codesAll values ∧ OneLine "c" ∧ "b" ∈ literalsAll values ∧ OneLine "b" ∧
      s.generate (.text "\t") values = .ok output ∧
      (s.generate (.text "") values).map (reindented "\t") = .ok output ∧
      (Text.segments '\n' output.toList).getLast? = some ['\t', '\x7d'] := by
  intro s
  have hread : readWithin 1 "<p a='b'>\nx\x7bc\x7d</p>".toList =
      .ok [.element "p" false [.prop "a" (.literal "b")] [.text "\nx", .expression "c"]] := by
    rfl
  have hs : s.OneLine " " := ⟨rfl, by decide, by decide, by decide, by decide, by decide⟩
  have hall := generate_reindented hread (by decide) (by decide) hs "\t"
  refine ⟨_, _, hread, by decide, by decide, by decide, by decide, rfl, hall.1.symm.trans rfl, ?_⟩
  exact (hall.2 _ rfl).2 (by decide) (by decide)

end Fusion

end Afx
