import Afx.Markup.Fault
import Afx.Proofs.Lexemes
import Mathlib.Algebra.GroupWithZero.Nat

/-!
# What Messages Say

A message about a source is a text, and an author who reads it looks for something in
the source: a tag of the name in the message, a character that it shows, or the end.
`Reports` says this of the texts themselves, one form of message after another, and
leaves out the causes for which they are made.

A character is shown between quotes. Most characters stand there as they are, but some
would mislead, and these are shown by an escape. `Shows` says which text shows which
character: an escape by a number has two, four or eight digits, and they are those of
the code of the character.

## Main definitions

* `hexValue`: The number that hexadecimal digits stand for.
* `Shows`: A text that shows a character.
* `Wanted`: What a message says to be missing.
* `Reports`: A message, and the text at the place that it is about.

## Theorems

* `hex_spec`: Numbers are written with digits that stand for them.
* `shows_quoted`: A character that is quoted is shown.
* `quoted_of_name`: A name that is quoted stands as it is between its quotes.
-/

namespace Afx

namespace Markup

/-! ## Numbers -/

/-- The digits of hexadecimal numbers. -/
def hexDigits : List Char := "0123456789abcdef".toList

/-- The number that hexadecimal digits stand for. -/
def hexValue (digits : List Char) : Nat :=
  digits.foldl (fun n d => 16 * n + hexDigits.idxOf d) 0

theorem hexValue_concat (digits : List Char) (d : Char) :
    hexValue (digits ++ [d]) = 16 * hexValue digits + hexDigits.idxOf d := by
  rw [hexValue, List.foldl_append]
  rfl

theorem digitChar_hex {d : Nat} (h : d < 16) :
    Nat.digitChar d ∈ hexDigits ∧ hexDigits.idxOf (Nat.digitChar d) = d := by
  revert d
  decide

theorem toDigits_hex (n : Nat) :
    (∀ d ∈ Nat.toDigits 16 n, d ∈ hexDigits) ∧ hexValue (Nat.toDigits 16 n) = n := by
  induction n using Nat.strongRecOn with
  | ind n ih =>
      rw [Nat.toDigits_eq_if (by decide)]
      split
      · rename_i hn
        rcases digitChar_hex hn with ⟨hmem, hvalue⟩
        exact ⟨by simpa using hmem, by simpa [hexValue] using hvalue⟩
      · rcases ih (n / 16) (by omega) with ⟨hmem, hvalue⟩
        rcases digitChar_hex (Nat.mod_lt n (by decide : 0 < 16)) with ⟨hlast, hdigit⟩
        refine ⟨?_, ?_⟩
        · intro d hd
          rcases List.mem_append.mp hd with hd | hd
          · exact hmem d hd
          · rwa [List.mem_singleton.mp hd]
        · rw [hexValue_concat, hvalue, hdigit, Nat.div_add_mod]

theorem hexValue_zeros (count : Nat) (digits : List Char) :
    hexValue (List.replicate count '0' ++ digits) = hexValue digits := by
  have hzeros : hexValue (List.replicate count '0') = 0 := by
    induction count with
    | zero => rfl
    | succ count ih =>
        rw [List.replicate_succ', hexValue_concat, ih]
        rfl
  unfold hexValue at hzeros ⊢
  rw [List.foldl_append, hzeros]

/-- A number that fits is written with as many digits as asked for, and they stand for it. -/
theorem hex_spec {width n : Nat} (hpos : 0 < width) (h : n < 16 ^ width) :
    (Text.hex width n).length = width ∧ (∀ d ∈ Text.hex width n, d ∈ hexDigits) ∧
      hexValue (Text.hex width n) = n := by
  rcases toDigits_hex n with ⟨hmem, hvalue⟩
  have hlength := (Nat.length_toDigits_le_iff (by decide : 1 < 16) hpos).mpr h
  refine ⟨?_, ?_, (hexValue_zeros _ _).trans hvalue⟩
  · simp only [Text.hex, List.length_append, List.length_replicate]
    omega
  · intro d hd
    rcases List.mem_append.mp hd with hd | hd
    · rw [List.eq_of_mem_replicate hd]
      decide
    · exact hmem d hd

/-! ## Characters and names -/

/-- A text that shows a character, between single quotes. A single quote stands between
    double ones. A backslash, a tab and the breaks of a line are shown by a letter behind a
    backslash, and every other character that cannot be printed by the digits of its
    code. -/
inductive Shows : Char → String → Prop where
  | printed {c : Char} (hc : Text.isPrintable c = true) (hquote : c ≠ '\'') (hslash : c ≠ '\\') :
      Shows c ("'" ++ String.singleton c ++ "'")
  | quote : Shows '\'' "\"'\""
  | backslash : Shows '\\' "'\\\\'"
  | tab : Shows '\t' "'\\t'"
  | lineFeed : Shows '\n' "'\\n'"
  | carriageReturn : Shows '\r' "'\\r'"
  | code {c letter : Char} {digits : List Char} (hc : Text.isPrintable c = false)
      (hbreak : c ∉ ['\t', '\n', '\r'])
      (hwidth : (letter, digits.length) ∈ [('x', 2), ('u', 4), ('U', 8)])
      (hdigits : ∀ d ∈ digits, d ∈ hexDigits) (hvalue : hexValue digits = c.toNat) :
      Shows c ("'\\" ++ String.singleton letter ++ String.ofList digits ++ "'")

/-- A character that cannot be printed is shown by the digits of its code. -/
theorem shows_code {c letter : Char} {width : Nat} (hc : Text.isPrintable c = false)
    (hbreak : c ∉ ['\t', '\n', '\r']) (hwidth : (letter, width) ∈ [('x', 2), ('u', 4), ('U', 8)])
    (hfits : c.toNat < 16 ^ width) :
    Shows c ("'" ++ String.ofList ('\\' :: letter :: Text.hex width c.toNat) ++ "'") := by
  have hpos : 0 < width := by
    simp only [List.mem_cons, Prod.mk.injEq, List.not_mem_nil, or_false] at hwidth
    omega
  rcases hex_spec hpos hfits with ⟨hlength, hdigits, hvalue⟩
  have htext : "'" ++ String.ofList ('\\' :: letter :: Text.hex width c.toNat) ++ "'" =
      "'\\" ++ String.singleton letter ++ String.ofList (Text.hex width c.toNat) ++ "'" := by
    rw [String.ofList_cons, String.ofList_cons, ← String.append_assoc, ← String.append_assoc]
    rfl
  rw [htext]
  exact .code hc hbreak (by rwa [hlength]) hdigits hvalue

/-- A character that is quoted is shown. -/
theorem shows_quoted (c : Char) : Shows c (Text.quoted (String.singleton c)) := by
  by_cases hquote : c = '\''
  · subst hquote
    exact .quote
  have hmark : Text.quoteMark [c] = '\'' := by simp [Text.quoteMark, Ne.symm hquote]
  have hquoted : Text.quoted (String.singleton c) =
      "'" ++ String.ofList (Text.escaped '\'' c) ++ "'" := by
    simp [Text.quoted, hmark, String.ofList_append, String.ofList_cons]
    rfl
  rw [hquoted]
  by_cases hslash : c = '\\'
  · subst hslash
    exact .backslash
  by_cases hbreak : c ∈ ['\t', '\n', '\r']
  · simp only [List.mem_cons, List.not_mem_nil, or_false] at hbreak
    rcases hbreak with rfl | rfl | rfl
    · exact .tab
    · exact .lineFeed
    · exact .carriageReturn
  -- What is left is shown as it is, or by its code in the shortest of three widths.
  have hplain := hbreak
  simp only [List.mem_cons, List.not_mem_nil, or_false, not_or] at hplain
  simp only [Text.escaped, hquote, hslash, hplain, beq_iff_eq, Bool.or_eq_true, or_self, if_false]
  split
  · rename_i hprint
    exact .printed hprint hquote hslash
  · rename_i hprint
    have hhidden : Text.isPrintable c = false := by simpa using hprint
    split
    · rename_i hfits
      exact shows_code hhidden hbreak (by simp) hfits
    · split
      · rename_i hfits
        exact shows_code hhidden hbreak (by simp) hfits
      · exact shows_code hhidden hbreak (by simp) c.val.toNat_lt

/-- The characters of names can be printed, and are no quotes or backslashes. -/
theorem escaped_nameChar {c : Char} (hc : isNameChar c = true) :
    c ≠ '\'' ∧ Text.escaped '\'' c = [c] := by
  have hascii : ∀ n < 128, isNameChar (Char.ofNat n) = true →
      Char.ofNat n ≠ '\'' ∧ Text.escaped '\'' (Char.ofNat n) = [Char.ofNat n] := by
    decide +kernel
  have hlast : c.toNat < 128 := by
    have hbounds := toNat_of_isNameChar hc
    omega
  have h := hascii c.toNat hlast
  rw [Char.ofNat_toNat] at h
  exact h hc

/-- A name that is quoted stands as it is between its quotes. -/
theorem quoted_of_name {name : String} (h : ∀ c ∈ name.toList, isNameChar c = true) :
    Text.quoted name = "'" ++ name ++ "'" := by
  have hmark : Text.quoteMark name.toList = '\'' := by
    have hnone : '\'' ∉ name.toList := fun hmem => (escaped_nameChar (h _ hmem)).1 rfl
    simp [Text.quoteMark, hnone]
  have hplain : ∀ s : List Char, (∀ c ∈ s, isNameChar c = true) →
      s.flatMap (Text.escaped '\'') = s := by
    intro s hs
    induction s with
    | nil => rfl
    | cons c rest ih =>
        rw [List.flatMap_cons, (escaped_nameChar (hs c List.mem_cons_self)).2,
          ih fun d hd => hs d (List.mem_cons_of_mem _ hd)]
        rfl
  rw [Text.quoted, hmark, hplain _ h, List.cons_append, String.ofList_cons, String.ofList_append,
    String.ofList_toList, String.append_assoc]
  rfl

/-! ## Messages -/

/-- What a message says to be missing where it is about a character or the end. -/
inductive Wanted : String → Prop where
  | tagName : Wanted ", expected tag name"
  | closingName : Wanted ", expected closing tag name"
  | bracket (tag : String) : Wanted (" in closing tag </" ++ tag ++ ">, expected '>'")
  | value (owner : String) : Wanted (", expected value of attribute '" ++ owner ++ "'")

/-- A message, and the text from the place that it is about to the end of the source. -/
inductive Reports : String → List Char → Prop where
  | unclosedTag {tag : String} {s : List Char} (h : '<' :: tag.toList <+: s) :
      Reports ("Unexpected end of input, tag <" ++ tag ++ "> is not closed") s
  | endInTag {tag : String} {s : List Char} (h : '<' :: tag.toList <+: s) :
      Reports ("Unexpected end of input in tag <" ++ tag ++ ">") s
  | end {wanted : String} (h : Wanted wanted) : Reports ("Unexpected end of input" ++ wanted) []
  | characterInTag {c : Char} {shown tag : String} {s : List Char} (hc : Shows c shown) :
      Reports ("Unexpected character " ++ shown ++ " in tag <" ++ tag ++ ">") (c :: s)
  | character {c : Char} {shown wanted : String} {s : List Char} (hc : Shows c shown)
      (h : Wanted wanted) : Reports ("Unexpected character " ++ shown ++ wanted) (c :: s)
  | strayClosingTag {s : List Char} (h : "</".toList <+: s) : Reports "Unexpected closing tag" s
  | mismatchedTag {closing opening : String} {s : List Char}
      (h : "</".toList ++ closing.toList <+: s) (hne : closing ≠ opening) :
      Reports ("Closing tag </" ++ closing ++ "> does not match opening tag <" ++ opening ++ ">") s
  | comment {s : List Char} (h : "<!--".toList <+: s) (hopen : ¬ "-->".toList <:+: s.drop 4) :
      Reports "Unterminated comment" s
  | quotation {s : List Char} (h : s.head? = some '"' ∨ s.head? = some '\'') :
      Reports "Unterminated string literal" s
  | expression {s : List Char} (h : s.head? = some '\x7b') : Reports "Unterminated expression" s
  | spread {s : List Char} (h : "\x7b...".toList <+: s) : Reports "Unterminated spread" s
  | spreadExpected {s : List Char} (h : s.head? = some '\x7b') (hnot : ¬ "\x7b...".toList <+: s) :
      Reports "Expected spread '\x7b...expression\x7d' in tag" s

/-- A message about what was found, and what is wanted instead. -/
theorem reports_unexpected {found : Option Char} {s : List Char} (h : s.head? = found)
    {wanted : String} (hwanted : Wanted wanted) : Reports (unexpected found ++ wanted) s := by
  cases s with
  | nil =>
      rw [← h]
      exact .end hwanted
  | cons c rest =>
      rw [← h]
      exact .character (shows_quoted c) hwanted

theorem reports_bracket {found : Option Char} {s : List Char} (h : s.head? = found)
    (tag : String) :
    Reports (Cause.textExpected ">" ("closing tag </" ++ tag ++ ">") found).message s := by
  have hfront : " in closing tag </" = " in " ++ "closing tag </" := rfl
  have hback : ">, expected '>'" = ">" ++ (", expected " ++ Text.quoted ">") := by decide
  have hreport := reports_unexpected h (.bracket tag)
  rw [hfront, hback] at hreport
  simp only [String.append_assoc] at hreport
  unfold Cause.message
  simp only [String.append_assoc]
  exact hreport

theorem reports_value {found : Option Char} {s : List Char} (h : s.head? = found)
    {owner : String} (howner : ∀ c ∈ owner.toList, isNameChar c = true) :
    Reports (Cause.valueExpected owner found).message s := by
  have hfront : ", expected value of attribute '" = ", expected value of attribute " ++ "'" :=
    rfl
  have hreport := reports_unexpected h (.value owner)
  rw [hfront] at hreport
  simp only [String.append_assoc] at hreport
  unfold Cause.message
  simp only [quoted_of_name howner, String.append_assoc]
  exact hreport

end Markup

end Afx
