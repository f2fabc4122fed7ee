import Afx.Fusion.Value
import Afx.Proofs.Balance
import Afx.Proofs.Printing

/-!
# Two Scanners of Code

Code is delimited twice. The reader of markup walks through it with an
automaton that finds the brace where it ends, and the check of a document walks
through it again when it stands between its marks. Both skip quotations, and in
three points they differ. Only the reader takes a backtick for a quote. Only the
check knows comments, which are lines of their own. And in a quotation the
reader lets a backslash protect a line feed, where the check waits for the next
other character.

`Portable` says that code meets none of the three. The check then follows the
reader state by state, with the brace that the code stands in as one more that
is open, and it leaves the code as it came to it. Each of the three points by
itself can make the check refuse what the reader has read.

## Main definitions

* `Markup.codes`, `Markup.codesAll`: All code that stands in a value.
* `CodeState.Alike`: A character that both scanners take in the same way.
* `Portable`: Code that both scanners read in the same way.
* `followed`: The state of the check that belongs to a state of the reader.

## Theorems

* `isCode_of_mem_codesAll`: The reader delimits all code of a well-formed list.
* `resume_next`, `resume_scan`: The check follows the reader.
* `resume_quotedCode`: Portable code leaves the check as it was.
* `checkBraces_portable`: Portable code of what is read passes the check.
* `checkBraces_refuses_code`: Code that is read and does not pass.
-/

namespace Afx

/-! ## All code of a value -/

namespace Markup

mutual

/-- All code that stands in a value. -/
def codes : Markup → List String
  | .expression code => [code]
  | .prop _ value => codes value
  | .spread value => codes value
  | .element _ _ attributes children => codesAll attributes ++ codesAll children
  | _ => []

/-- All code that stands in a list of values. -/
def codesAll : List Markup → List String
  | [] => []
  | value :: rest => codes value ++ codesAll rest

end

theorem mem_codesAll {code : String} {values : List Markup} :
    code ∈ codesAll values ↔ ∃ value ∈ values, code ∈ codes value := by
  induction values with
  | nil => simp [codesAll]
  | cons value rest ih => simp [codesAll, ih]

theorem isCode_of_mem_attribute {attr : Markup} (h : WellFormedAttribute attr) {code : String}
    (hcode : code ∈ codes attr) : IsCode code.toList := by
  rcases wellFormedAttribute_cases h with ⟨name, value, rfl⟩ | ⟨other, rfl, hother⟩
  · rcases wellFormedProp_cases h with ⟨-, rfl | ⟨content, rfl⟩ | ⟨other, rfl, hother⟩⟩
    · simp [codes] at hcode
    · simp [codes] at hcode
    · simp only [codes, List.mem_singleton] at hcode
      rw [hcode]
      exact hother
  · simp only [codes, List.mem_singleton] at hcode
    rw [hcode]
    exact hother

theorem isCode_of_mem_codesAll {values : List Markup} (h : WellFormedAll values) {code : String}
    (hcode : code ∈ codesAll values) : IsCode code.toList := by
  induction values using siblings_induction with
  | hnil => simp [codesAll] at hcode
  | hcons value rest ihchildren ihrest =>
      rw [codesAll, List.mem_append] at hcode
      rcases hcode with hcode | hcode
      · have hvalue := h.1
        rcases wellFormed_cases hvalue with ⟨content, rfl⟩ | ⟨raw, rfl⟩ | ⟨other, rfl⟩ |
          ⟨name, selfClosing, attributes, children, rfl⟩
        · simp [codes] at hcode
        · simp [codes] at hcode
        · simp only [codes, List.mem_singleton] at hcode
          rw [hcode]
          exact hvalue
        · rcases hvalue with ⟨-, hattributes, -, hchildren⟩
          rw [codes, List.mem_append] at hcode
          rcases hcode with hcode | hcode
          · rcases mem_codesAll.mp hcode with ⟨attr, hmem, hattr⟩
            exact isCode_of_mem_attribute (hattributes attr hmem) hattr
          · exact ihchildren name selfClosing attributes children rfl hchildren hcode
      · exact ihrest h.2.2 hcode

end Markup

namespace Fusion

open Markup

/-! ## Code that both scanners read in the same way -/

/-- A character that both scanners take in the same way, given the state of the
    reader before it and the code behind it. -/
def Alike : CodeState → Char → List Char → Prop
  | .code _, c, rest => c ≠ '\x60' ∧ (c = '\n' → ¬ StartsComment rest)
  | .quoted _ _, _, _ => True
  | .escaped _ _, c, _ => c ≠ '\n'

/-- Code that both scanners read in the same way from a state of the reader on. -/
def PortableFrom : CodeState → List Char → Prop
  | _, [] => True
  | state, c :: rest => Alike state c rest ∧ ∀ after ∈ state.next c, PortableFrom after rest

/-- Code that both scanners read in the same way: no backtick opens a quotation,
    no line is a comment, and no backslash protects a line feed. -/
def Portable (code : List Char) : Prop :=
  PortableFrom (.code 0) code

instance : (state : CodeState) → (c : Char) → (rest : List Char) → Decidable (Alike state c rest)
  | .code _, c, rest => inferInstanceAs (Decidable (c ≠ '\x60' ∧ (c = '\n' → ¬ StartsComment rest)))
  | .quoted _ _, _, _ => inferInstanceAs (Decidable True)
  | .escaped _ _, c, _ => inferInstanceAs (Decidable (c ≠ '\n'))

instance PortableFrom.decidable :
    (state : CodeState) → (code : List Char) → Decidable (PortableFrom state code)
  | _, [] => inferInstanceAs (Decidable True)
  | state, c :: rest =>
    have (after : CodeState) : Decidable (PortableFrom after rest) :=
      PortableFrom.decidable after rest
    inferInstanceAs
      (Decidable (Alike state c rest ∧ ∀ after ∈ state.next c, PortableFrom after rest))

instance (code : List Char) : Decidable (Portable code) :=
  PortableFrom.decidable (.code 0) code

/-! ## The check follows the reader -/

/-- The state of the check that belongs to a state of the reader, where so many
    braces were open before the code and its own brace is one more. -/
def followed (depth : Nat) : CodeState → Scan
  | .code inner => ⟨depth + 1 + inner, none, false⟩
  | .quoted inner quote => ⟨depth + 1 + inner, some quote, false⟩
  | .escaped inner quote => ⟨depth + 1 + inner, some quote, true⟩

/-- A state of the reader whose quotation, if it has one, is one to the check too. -/
def Shared : CodeState → Prop
  | .code _ => True
  | .quoted _ quote => quote = '\'' ∨ quote = '"'
  | .escaped _ quote => quote = '\'' ∨ quote = '"'

/-- The brace behind code cannot turn the code's last line into a comment. -/
theorem startsComment_of_closing {code rest : List Char}
    (h : StartsComment (code ++ '\x7d' :: rest)) : StartsComment code := by
  induction code with
  | nil =>
      rw [List.nil_append, startsComment_direct (by decide)] at h
      simp at h
  | cons c code ih =>
      rw [List.cons_append] at h
      by_cases hc : Text.isBlank c = true
      · -- Blanks before a mark stay on the line.
        have hline : c ≠ '\n' := by
          rintro rfl
          exact not_startsComment_lineFeed _ h
        rw [startsComment_blank hc hline] at h ⊢
        exact ih h
      · have hc' : Text.isBlank c = false := by simpa using hc
        rw [startsComment_direct hc'] at h ⊢
        cases code with
        | nil => simpa using h
        | cons d code => simpa using h

/-- One character: the check follows the reader into a state that is shared again. -/
theorem resume_next {state after : CodeState} {c : Char} {code : List Char}
    (hnext : state.next c = some after) (hshared : Shared state) (halike : Alike state c code)
    (line depth : Nat) (rest : List Char) :
    Shared after ∧ (followed depth state).resume line (c :: code ++ '\x7d' :: rest) =
      (followed depth after).resume (line + [c].count '\n') (code ++ '\x7d' :: rest) := by
  rw [List.cons_append]
  cases state with
  | code inner =>
      by_cases hline : c = '\n'
      · -- The next line is no comment, so the check resumes in it.
        subst hline
        have hcomment : ¬ StartsComment (code ++ '\x7d' :: rest) :=
          fun h => halike.2 rfl (startsComment_of_closing h)
        rw [CodeState.next_code_plain inner (by decide) (by decide) (by decide),
          Option.some.injEq] at hnext
        subst hnext
        exact ⟨trivial, by
          rw [followed, Scan.resume_lineFeed, Scan.restart_ordinary _ _ hcomment,
            List.count_singleton_self]⟩
      · have hcount : [c].count '\n' = 0 := by simpa [List.count_singleton] using hline
        rw [hcount, Nat.add_zero]
        by_cases hquote : isCodeQuote c = true
        · -- The reader's third quote is the backtick, which is not alike.
          have hc : c = '\'' ∨ c = '"' := by
            simpa [isCodeQuote, halike.1, or_comm] using hquote
          rw [CodeState.next_code_quote inner hquote, Option.some.injEq] at hnext
          subst hnext
          exact ⟨hc, Scan.resume_quote hc line _ _⟩
        · by_cases hopen : c = '\x7b'
          · subst hopen
            rw [CodeState.next_code_open, Option.some.injEq] at hnext
            subst hnext
            exact ⟨trivial, Scan.resume_open line _ _⟩
          · by_cases hclose : c = '\x7d'
            · -- A brace that the code has not opened would have ended it.
              subst hclose
              cases inner with
              | zero => simp [(CodeState.next_eq_none_iff _ _).mpr] at hnext
              | succ inner =>
                  rw [CodeState.next_code_close, Option.some.injEq] at hnext
                  subst hnext
                  exact ⟨trivial, Scan.resume_close line _ _⟩
            · rw [CodeState.next_code_plain inner (by simpa using hquote) hopen hclose,
                Option.some.injEq] at hnext
              subst hnext
              refine ⟨trivial, Scan.resume_plain ?_ line _ _⟩
              have hc : c ≠ '\'' ∧ c ≠ '"' := by
                constructor <;> rintro rfl <;> exact hquote (by decide)
              simp [hline, hopen, hclose, hc]
  | quoted inner quote =>
      by_cases hslash : c = '\\'
      · subst hslash
        rw [CodeState.next_quoted_slash, Option.some.injEq] at hnext
        subst hnext
        exact ⟨hshared, Scan.resume_slash line _ _ _⟩
      · by_cases hquote : c = quote
        · -- A quote that is shared is no line feed, so the line stays the same.
          subst hquote
          rw [CodeState.next_quoted_quote inner hslash, Option.some.injEq] at hnext
          subst hnext
          have hcount : [c].count '\n' = 0 := by
            rcases hshared with rfl | rfl <;> decide
          rw [hcount, Nat.add_zero]
          exact ⟨trivial, Scan.resume_unquote hshared line _ _⟩
        · rw [CodeState.next_quoted_plain inner hquote hslash, Option.some.injEq] at hnext
          subst hnext
          exact ⟨hshared, Scan.resume_quoted_plain hquote hslash line _ _⟩
  | escaped inner quote =>
      -- Only a line feed would be protected by the reader and not by the check.
      rw [CodeState.next_escaped, Option.some.injEq] at hnext
      subst hnext
      have hline : c ≠ '\n' := halike
      have hcount : [c].count '\n' = 0 := by simpa [List.count_singleton] using hline
      rw [hcount, Nat.add_zero]
      exact ⟨hshared, Scan.resume_protected hline line _ _ _⟩

theorem resume_scan {state after : CodeState} {code : List Char}
    (hscan : state.scan code = some after) (hshared : Shared state)
    (hportable : PortableFrom state code) (line depth : Nat) (rest : List Char) :
    (followed depth state).resume line (code ++ '\x7d' :: rest) =
      (followed depth after).resume (line + code.count '\n') ('\x7d' :: rest) := by
  induction code generalizing state line with
  | nil =>
      rw [CodeState.scan_nil, Option.some.injEq] at hscan
      rw [hscan]
      rfl
  | cons c code ih =>
      rw [CodeState.scan_cons, Option.bind_eq_some_iff] at hscan
      rcases hscan with ⟨between, hnext, hscan⟩
      rcases resume_next hnext hshared hportable.1 line depth rest with ⟨hbetween, hstep⟩
      rw [hstep, ih hscan hbetween (hportable.2 between hnext), Nat.add_assoc,
        ← List.count_append, List.singleton_append]

/-- Outside of quotations the check comes out of portable code as it came to it. -/
theorem resume_quotedCode {code : String} (hcode : IsCode code.toList)
    (hportable : Portable code.toList) (line depth : Nat) (rest : List Char) :
    Scan.resume line ⟨depth, none, false⟩ ((quotedCode code).toList ++ rest) =
      Scan.resume (line + code.toList.count '\n') ⟨depth, none, false⟩ rest := by
  have htext : (quotedCode code).toList ++ rest =
      '$' :: '\x7b' :: (code.toList ++ '\x7d' :: rest) := by
    simp [quotedCode]
  calc Scan.resume line ⟨depth, none, false⟩ ((quotedCode code).toList ++ rest)
      = (followed depth (.code 0)).resume line (code.toList ++ '\x7d' :: rest) := by
        rw [htext, Scan.resume_plain (by decide), Scan.resume_open]
        rfl
    _ = (followed depth (.code 0)).resume (line + code.toList.count '\n') ('\x7d' :: rest) :=
        resume_scan hcode trivial hportable line depth rest
    _ = Scan.resume (line + code.toList.count '\n') ⟨depth, none, false⟩ rest :=
        Scan.resume_close _ depth rest

theorem checkBraces_quotedCode {code : String} (hcode : IsCode code.toList)
    (hportable : Portable code.toList) : checkBraces (quotedCode code) = .ok () := by
  have hstart : ¬ StartsComment (quotedCode code).toList := by
    have htext : (quotedCode code).toList = '$' :: '\x7b' :: (code.toList ++ ['\x7d']) := by
      simp [quotedCode]
    rw [htext, startsComment_direct (by decide)]
    simp
  have hscan := resume_quotedCode hcode hportable 1 0 []
  rw [List.append_nil, ← Scan.restart_ordinary 1 0 hstart, Scan.resume_nil, Scan.restart] at hscan
  rw [checkBraces, hscan]
  rfl

/-- Of the code of what is read, the check accepts exactly that whose counted braces
    nest. Portable code is accepted, and it leaves the check of a document it
    stands in, outside of quotations, as it was. -/
theorem checkBraces_portable {limit : Nat} {source : List Char} {values : List Markup}
    (hread : readWithin limit source = .ok values) {code : String}
    (hmem : code ∈ codesAll values) :
    (checkBraces (quotedCode code) = .ok () ↔
      ∃ braces, Counted true 1 (quotedCode code).toList braces ∧ Balanced braces) ∧
    (Portable code.toList →
      checkBraces (quotedCode code) = .ok () ∧
      ∀ line depth rest,
        Scan.resume line ⟨depth, none, false⟩ ((quotedCode code).toList ++ rest) =
          Scan.resume (line + code.toList.count '\n') ⟨depth, none, false⟩ rest) := by
  have hcode : IsCode code.toList :=
    isCode_of_mem_codesAll (wellFormedAll_of_derives (derives_of_readWithin hread).1) hmem
  refine ⟨checkBraces_iff_balanced _, fun hportable => ⟨?_, ?_⟩⟩
  · exact checkBraces_quotedCode hcode hportable
  · exact resume_quotedCode hcode hportable

/-- Two lines of code with braces and a backtick in quotations. -/
theorem checkBraces_portable_spread :
    readWithin 1 "<p \x7b...a['\x7d'] +\n\x7bb: \"\\\"\x7b\x60\"\x7d\x7d/>".toList =
      .ok [.element "p" true
        [.spread (.expression "a['\x7d'] +\n\x7bb: \"\\\"\x7b\x60\"\x7d")] []] ∧
    Portable "a['\x7d'] +\n\x7bb: \"\\\"\x7b\x60\"\x7d".toList ∧
    checkBraces (quotedCode "a['\x7d'] +\n\x7bb: \"\\\"\x7b\x60\"\x7d") = .ok () := by
  have hread : readWithin 1 "<p \x7b...a['\x7d'] +\n\x7bb: \"\\\"\x7b\x60\"\x7d\x7d/>".toList =
      .ok [.element "p" true
        [.spread (.expression "a['\x7d'] +\n\x7bb: \"\\\"\x7b\x60\"\x7d")] []] := by
    rfl
  have hportable : Portable "a['\x7d'] +\n\x7bb: \"\\\"\x7b\x60\"\x7d".toList := by
    decide
  exact ⟨hread, hportable, ((checkBraces_portable hread (by decide)).2 hportable).1⟩

/-- Each point in which the scanners differ can make the check refuse code that is
    read: a quotation between backticks, a line that is a comment, and a line feed
    that is protected. -/
theorem checkBraces_refuses_code :
    (read "\x7b\x60'\x60\x7d".toList = .ok [.expression "\x60'\x60"] ∧
      checkBraces (quotedCode "\x60'\x60") = .error (.leftOpen 1)) ∧
    (read "\x7b\n//\x7b\n\x7d\x7d".toList = .ok [.expression "\n//\x7b\n\x7d"] ∧
      checkBraces (quotedCode "\n//\x7b\n\x7d") = .error (.unmatched 3)) ∧
    (read "\x7b'\\\n'\x7d".toList = .ok [.expression "'\\\n'"] ∧
      checkBraces (quotedCode "'\\\n'") = .error (.leftOpen 1)) :=
  ⟨⟨rfl, rfl⟩, ⟨rfl, rfl⟩, rfl, rfl⟩

end Fusion

end Afx
