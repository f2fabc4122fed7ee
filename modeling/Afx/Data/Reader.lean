import Afx.Data.Basic
import Afx.Loop

/-!
# Reading Data

Settings files are JSON documents. The reader takes the whole document or
nothing: it refuses control characters inside strings, leading zeros, missing
or trailing commas, and anything after the document. Beyond the standard it
accepts the three names of special numbers, and of two fields with one key the
later value counts.

Nested lists and records are kept on a stack of open containers, so that one
loop reads documents of any depth. How deep containers may be nested and how
many digits a whole number may have is up to the caller; what goes beyond is
refused where it stands, before anything behind it is looked at.

## Main definitions

* `Datum.Limits`: What a document may hold.
* `Datum.ReadFault`: Why a document is refused.
* `Datum.Reading`: What has been read and what is left.
* `Datum.readWithin`: The data of a whole document.

## Theorems

* `Datum.turn_shortens`: Every turn of the reader leaves less to read.
-/

namespace Afx

namespace Datum

/-- The blanks between the parts of a document. -/
def isSpace (c : Char) : Bool :=
  c == ' ' || c == '\t' || c == '\n' || c == '\r'

/-- What is left after the leading blanks. -/
def skipSpace (s : List Char) : List Char :=
  s.dropWhile isSpace

/-- The number that a string of decimal digits stands for. -/
def numeral (digits : List Char) : Nat :=
  digits.foldl (fun n c => 10 * n + (c.toNat - '0'.toNat)) 0

/-- The value of a hexadecimal digit. -/
def hexDigit? (c : Char) : Option Nat :=
  if c.isDigit then some (c.toNat - '0'.toNat)
  else if 'a' ≤ c && c ≤ 'f' then some (c.toNat - 'a'.toNat + 10)
  else if 'A' ≤ c && c ≤ 'F' then some (c.toNat - 'A'.toNat + 10)
  else none

/-- The unit that four hexadecimal digits stand for. -/
def hexUnit? (a b c d : Char) : Option Nat := do
  return 4096 * (← hexDigit? a) + 256 * (← hexDigit? b) + 16 * (← hexDigit? c) + (← hexDigit? d)

/-- The character that a backslash and a letter stand for. -/
def escape? : Char → Option Char
  | '"' => some '"'
  | '\\' => some '\\'
  | '/' => some '/'
  | 'b' => some '\x08'
  | 'f' => some '\x0c'
  | 'n' => some '\n'
  | 'r' => some '\r'
  | 't' => some '\t'
  | _ => none

/-- The code points of a list of code units: a high and a low surrogate together
    are one character. -/
def pairUnits : List Nat → List Text.Point
  | high :: low :: rest =>
    if 0xd800 ≤ high && high < 0xdc00 && 0xdc00 ≤ low && low < 0xe000 then
      .char (Char.ofNat (0x10000 + (high - 0xd800) * 0x400 + (low - 0xdc00))) :: pairUnits rest
    else unit high :: pairUnits (low :: rest)
  | [last] => [unit last]
  | [] => []
where
  /-- A surrogate alone is half of a pair. -/
  unit (n : Nat) : Text.Point :=
    if 0xd800 ≤ n && n < 0xe000 then .half n else .char (Char.ofNat n)

/-- The code units of a string up to its closing quote, and what follows it. -/
def stringUnits (units : List Nat) : List Char → Option (List Nat × List Char)
  | [] => none
  | '"' :: rest => some (units.reverse, rest)
  | '\\' :: 'u' :: a :: b :: c :: d :: rest =>
    match hexUnit? a b c d with
    | some unit => stringUnits (unit :: units) rest
    | none => none
  | '\\' :: c :: rest =>
    match escape? c with
    | some e => stringUnits (e.toNat :: units) rest
    | none => none
  | c :: rest => if c < ' ' then none else stringUnits (c.toNat :: units) rest

/-- A string after its opening quote. -/
def string? (s : List Char) : Option (Datum × List Char) :=
  (stringUnits [] s).map fun (units, rest) => (ofPoints (pairUnits units), rest)

/-- The digits before the point: a zero, or digits that start with no zero. -/
def whole? : List Char → Option (List Char × List Char)
  | [] => none
  | c :: rest =>
    if c == '0' then some ([c], rest)
    else if c.isDigit then some (c :: rest.takeWhile Char.isDigit, rest.dropWhile Char.isDigit)
    else none

/-- The digits after a point, none if there is no point or no digit after it. -/
def places : List Char → List Char × List Char
  | '.' :: c :: rest =>
    if c.isDigit then (c :: rest.takeWhile Char.isDigit, rest.dropWhile Char.isDigit)
    else ([], '.' :: c :: rest)
  | s => ([], s)

/-- A signed exponent, if its mark is followed by a digit. -/
def exponent? : List Char → Option (Int × List Char)
  | mark :: rest =>
    if mark == 'e' || mark == 'E' then
      match rest with
      | '-' :: c :: more => (unsigned? c more).map fun (n, left) => (-(n : Int), left)
      | '+' :: c :: more => (unsigned? c more).map fun (n, left) => ((n : Int), left)
      | c :: more => (unsigned? c more).map fun (n, left) => ((n : Int), left)
      | [] => none
    else none
  | [] => none
where
  /-- A digit and the digits after it. -/
  unsigned? (c : Char) (more : List Char) : Option (Nat × List Char) :=
    if c.isDigit then
      some (numeral (c :: more.takeWhile Char.isDigit), more.dropWhile Char.isDigit)
    else none

/-- The binary fraction nearest to `digits * 10 ^ power`. Beyond the range of
    binary fractions it is infinite, and below it zero. -/
def nearest (digits : List Char) (power : Int) : Float :=
  let n := numeral digits
  -- The magnitude decides whether the number is in range before any power is computed.
  let top : Int := (Nat.toDigits 10 n).length + power
  if n == 0 || top < -400 then 0
  else if 400 < top then Float.ofScientific 1 false 400
  else if power < 0 then Float.ofScientific n true (-power).toNat
  else Float.ofScientific n false power.toNat

/-- A whole number with its sign. -/
def signedInteger (negative : Bool) (digits : List Char) : Datum :=
  integer (if negative then -(numeral digits : Int) else numeral digits)

/-- A binary fraction with its sign. -/
def signedFraction (negative : Bool) (digits : List Char) (power : Int) : Datum :=
  fraction (if negative then -nearest digits power else nearest digits power)

/-- A number: whole unless it has a point or an exponent. -/
def number? (negative : Bool) (s : List Char) : Option (Datum × List Char) :=
  match whole? s with
  | none => none
  | some (digits, afterWhole) =>
    match places afterWhole with
    | (decimals, afterPlaces) =>
      match exponent? afterPlaces with
      | some (power, rest) =>
        some (signedFraction negative (digits ++ decimals) (power - decimals.length), rest)
      | none =>
        if decimals.isEmpty then some (signedInteger negative digits, afterPlaces)
        else
          some (signedFraction negative (digits ++ decimals) (-(decimals.length : Int)),
            afterPlaces)

/-- The values that are written by a name. -/
def constants : List (String × Datum) :=
  [("null", null), ("true", bool true), ("false", bool false),
    ("NaN", fraction (0 / 0)), ("Infinity", fraction (1 / 0)), ("-Infinity", fraction (-1 / 0))]

/-- A value written by its name. -/
def named? (s : List Char) : Option (Datum × List Char) :=
  constants.findSome? fun (name, value) =>
    if name.toList.isPrefixOf s then some (value, s.drop name.length) else none

/-- A value that is not a container. -/
def scalar? (s : List Char) : Option (Datum × List Char) :=
  match named? s with
  | some found => some found
  | none =>
    match s with
    | '"' :: rest => string? rest
    | '-' :: rest => number? true rest
    | _ => number? false s

/-- The key of a field with the colon after it. A key is a text without halves: in
    one that has them each is replaced. -/
def key? (s : List Char) : Option (String × List Char) :=
  match skipSpace s with
  | '"' :: rest =>
    match string? rest with
    | some (key, left) =>
      match skipSpace left with
      | ':' :: after => some (key.display, after)
      | _ => none
    | none => none
  | _ => none

/-- A container that is not closed yet, with what it holds so far, last first. -/
inductive Container where
  | items (done : List Datum)
  | fields (done : List (String × Datum)) (key : String)

/-- What a document may hold: so many digits in a whole number, and so many
    containers one inside the other. -/
structure Limits where
  digits : Option Nat := none
  depth : Option Nat := none

/-- Why a document is refused. -/
inductive ReadFault where
  /-- It is not well formed. -/
  | malformed
  /-- A whole number has too many digits. -/
  | tooManyDigits
  /-- Too many containers are open at a time. -/
  | tooDeep
  deriving DecidableEq, Repr

/-- The containers that are open, innermost first, the value just completed if
    there is one, and what is left to read. -/
structure Reading where
  opened : List Container
  pending : Option Datum
  rest : List Char

namespace Reading

/-- Starts a value: opens a container, or completes a value at once. -/
def start (opened : List Container) (s : List Char) : Option Reading :=
  match s with
  | '[' :: after =>
    match skipSpace after with
    | ']' :: left => some ⟨opened, some (list []), left⟩
    | _ => some ⟨.items [] :: opened, none, after⟩
  | '\x7b' :: after =>
    match skipSpace after with
    | '\x7d' :: left => some ⟨opened, some (record []), left⟩
    | _ => (key? after).map fun (key, left) => ⟨.fields [] key :: opened, none, left⟩
  | _ => (scalar? s).map fun (value, left) => ⟨opened, some value, left⟩

/-- Puts a completed value into the innermost container, which goes on after a
    comma and is completed by its closing mark. -/
def place (container : Container) (opened : List Container) (value : Datum) (s : List Char) :
    Option Reading :=
  match container, s with
  | .items done, ',' :: left => some ⟨.items (value :: done) :: opened, none, left⟩
  | .items done, ']' :: left => some ⟨opened, some (list (value :: done).reverse), left⟩
  | .fields done key, ',' :: left =>
    (key? left).map fun (next, after) =>
      ⟨.fields ((key, value) :: done) next :: opened, none, after⟩
  | .fields done key, '\x7d' :: left =>
    some ⟨opened, some (recordOf ((key, value) :: done).reverse), left⟩
  | _, _ => none

/-- Whether a container opens at the front of a text although as many are open
    as may be. -/
def isTooDeep (limits : Limits) (opened : List Container) (s : List Char) : Bool :=
  (s.head? == some '[' || s.head? == some '\x7b') && limits.depth.any (· ≤ opened.length)

/-- Whether the value just completed is a whole number with too many digits. -/
def isTooLong (limits : Limits) (r : Reading) : Bool :=
  match r.pending with
  | some (integer n) => limits.digits.any fun limit => !fitsDigits limit n
  | _ => false

/-- One turn of reading: start a value, place a completed one, or stop when the
    outermost value is complete and nothing follows it. -/
def turn (limits : Limits) (r : Reading) : Except ReadFault (Turn Reading Datum) :=
  match r.pending, r.opened with
  | none, opened =>
    -- A value has to come here, at the start, after a comma or after a key.
    if isTooDeep limits opened (skipSpace r.rest) then .error .tooDeep
    else
      match start opened (skipSpace r.rest) with
      | some next => if next.isTooLong limits then .error .tooManyDigits else .ok (.next next)
      | none => .error .malformed
  | some value, container :: opened =>
    match place container opened value (skipSpace r.rest) with
    | some next => .ok (.next next)
    | none => .error .malformed
  | some value, [] => if (skipSpace r.rest).isEmpty then .ok (.stop value) else .error .malformed

end Reading

theorem length_skipSpace_le (s : List Char) : (skipSpace s).length ≤ s.length :=
  (List.dropWhile_sublist _).length_le

theorem length_stringUnits_lt {units : List Nat} {s : List Char} {found : List Nat × List Char}
    (h : stringUnits units s = some found) : found.2.length < s.length := by
  fun_induction stringUnits units s with
  | case1 => simp at h
  | case2 => simp only [Option.some.injEq] at h; subst h; simp
  | case3 _ _ _ _ _ _ _ _ ih => have := ih h; simp only [List.length_cons]; omega
  | case4 => simp at h
  | case5 _ _ _ _ _ _ ih => have := ih h; simp only [List.length_cons]; omega
  | case6 => simp at h
  | case7 => simp at h
  | case8 _ _ _ _ _ _ _ ih => have := ih h; simp only [List.length_cons]; omega

theorem length_string?_lt {s : List Char} {found : Datum × List Char}
    (h : string? s = some found) : found.2.length < s.length := by
  simp only [string?, Option.map_eq_some_iff] at h
  obtain ⟨units, hu, rfl⟩ := h
  exact length_stringUnits_lt hu

theorem length_whole?_lt {s : List Char} {found : List Char × List Char}
    (h : whole? s = some found) : found.2.length < s.length := by
  cases s with
  | nil => simp [whole?] at h
  | cons c rest =>
    simp only [whole?] at h
    split at h
    · simp only [Option.some.injEq] at h; subst h; simp
    · split at h
      · simp only [Option.some.injEq] at h
        subst h
        have := (List.dropWhile_sublist (l := rest) Char.isDigit).length_le
        simp only [List.length_cons]
        omega
      · simp at h

theorem length_places_le (s : List Char) : (places s).2.length ≤ s.length := by
  fun_cases places s with
  | case1 c rest _ =>
    have := (List.dropWhile_sublist (l := rest) Char.isDigit).length_le
    simp only [List.length_cons]
    omega
  | case2 => simp
  | case3 => simp

theorem length_unsigned?_le {c : Char} {more : List Char} {found : Nat × List Char}
    (h : exponent?.unsigned? c more = some found) : found.2.length ≤ more.length := by
  simp only [exponent?.unsigned?] at h
  split at h
  · simp only [Option.some.injEq] at h
    subst h
    exact (List.dropWhile_sublist _).length_le
  · simp at h

theorem length_exponent?_lt {s : List Char} {found : Int × List Char}
    (h : exponent? s = some found) : found.2.length < s.length := by
  simp only [exponent?] at h
  split at h
  · split at h
    · -- With either sign or none, digits follow the mark.
      have hdigits : ∀ {c more} {f : Nat × List Char → Int × List Char},
          (∀ d, (f d).2 = d.2) → (exponent?.unsigned? c more).map f = some found →
          found.2.length ≤ more.length := by
        intro c more f hf hmap
        obtain ⟨digits, hd, rfl⟩ := Option.map_eq_some_iff.mp hmap
        exact hf digits ▸ length_unsigned?_le hd
      split at h
      · have := hdigits (fun _ => rfl) h
        simp only [List.length_cons]
        omega
      · have := hdigits (fun _ => rfl) h
        simp only [List.length_cons]
        omega
      · have := hdigits (fun _ => rfl) h
        simp only [List.length_cons]
        omega
      · simp at h
    · simp at h
  · simp at h

theorem length_number?_lt {negative : Bool} {s : List Char} {found : Datum × List Char}
    (h : number? negative s = some found) : found.2.length < s.length := by
  simp only [number?] at h
  split at h
  · simp at h
  · rename_i digits afterWhole hw
    have hwhole := length_whole?_lt hw
    have hplaces := length_places_le afterWhole
    split at h
    · rename_i power rest he
      have hexponent := length_exponent?_lt he
      simp only [Option.some.injEq] at h
      subst h
      simp only at *
      omega
    · split at h <;>
      · simp only [Option.some.injEq] at h
        subst h
        simp only at *
        omega

theorem length_named?_lt {s : List Char} {found : Datum × List Char}
    (h : named? s = some found) : found.2.length < s.length := by
  simp only [named?, List.findSome?_eq_some_iff] at h
  obtain ⟨_, entry, _, hlist, hentry, _⟩ := h
  have hmem : entry ∈ constants := by simp [hlist]
  split at hentry
  · rename_i hp
    simp only [Option.some.injEq] at hentry
    subst hentry
    have hle := (List.isPrefixOf_iff_prefix.mp hp).length_le
    -- No constant has an empty name.
    have hpos : 0 < entry.1.length := by
      simp only [constants, List.mem_cons, List.not_mem_nil, or_false] at hmem
      rcases hmem with rfl | rfl | rfl | rfl | rfl | rfl <;> decide
    simp only [String.length_toList] at hle
    simp only [List.length_drop]
    omega
  · simp at hentry

theorem length_scalar?_lt {s : List Char} {found : Datum × List Char}
    (h : scalar? s = some found) : found.2.length < s.length := by
  simp only [scalar?] at h
  split at h
  · rename_i hn
    simp only [Option.some.injEq] at h
    subst h
    exact length_named?_lt hn
  · split at h
    · have := length_string?_lt h
      simp only [List.length_cons]
      omega
    · have := length_number?_lt h
      simp only [List.length_cons]
      omega
    · exact length_number?_lt h

theorem length_key?_lt {s : List Char} {found : String × List Char}
    (h : key? s = some found) : found.2.length < s.length := by
  have hskip := length_skipSpace_le s
  simp only [key?] at h
  split at h
  · rename_i rest hs
    rw [hs] at hskip
    split at h
    · rename_i key left hk
      have hstring := length_string?_lt hk
      have hleft := length_skipSpace_le left
      split at h
      · rename_i after ha
        rw [ha] at hleft
        simp only [Option.some.injEq] at h
        subst h
        simp only [List.length_cons] at *
        omega
      · simp at h
    · simp at h
  · simp at h

theorem Reading.length_start_lt {opened : List Container} {s : List Char} {next : Reading}
    (h : Reading.start opened s = some next) : next.rest.length < s.length := by
  simp only [Reading.start] at h
  split at h
  · rename_i after
    have hafter := length_skipSpace_le after
    split at h
    · rename_i left hl
      rw [hl] at hafter
      simp only [Option.some.injEq] at h
      subst h
      simp only [List.length_cons] at *
      omega
    · simp only [Option.some.injEq] at h
      subst h
      simp
  · rename_i after
    have hafter := length_skipSpace_le after
    split at h
    · rename_i left hl
      rw [hl] at hafter
      simp only [Option.some.injEq] at h
      subst h
      simp only [List.length_cons] at *
      omega
    · simp only [Option.map_eq_some_iff] at h
      obtain ⟨found, hf, rfl⟩ := h
      have := length_key?_lt hf
      simp only [List.length_cons]
      omega
  · simp only [Option.map_eq_some_iff] at h
    obtain ⟨found, hf, rfl⟩ := h
    exact length_scalar?_lt hf

theorem Reading.length_place_lt {container : Container} {opened : List Container} {value : Datum}
    {s : List Char} {next : Reading} (h : Reading.place container opened value s = some next) :
    next.rest.length < s.length := by
  simp only [Reading.place] at h
  split at h
  · simp only [Option.some.injEq] at h; subst h; simp
  · simp only [Option.some.injEq] at h; subst h; simp
  · simp only [Option.map_eq_some_iff] at h
    obtain ⟨found, hf, rfl⟩ := h
    have := length_key?_lt hf
    simp only [List.length_cons]
    omega
  · simp only [Option.some.injEq] at h; subst h; simp
  · simp at h

/-- Every turn of the reader leaves less to read. -/
theorem turn_shortens {limits : Limits} {r next : Reading}
    (h : r.turn limits = .ok (.next next)) : next.rest.length < r.rest.length := by
  have hskip := length_skipSpace_le r.rest
  simp only [Reading.turn] at h
  split at h
  · split at h
    · simp at h
    · split at h
      · rename_i found hf
        split at h
        · simp at h
        · simp only [Except.ok.injEq, Turn.next.injEq] at h
          subst h
          exact Nat.lt_of_lt_of_le (Reading.length_start_lt hf) hskip
      · simp at h
  · split at h
    · rename_i found hf
      simp only [Except.ok.injEq, Turn.next.injEq] at h
      subst h
      exact Nat.lt_of_lt_of_le (Reading.length_place_lt hf) hskip
    · simp at h
  · split at h <;> simp at h

/-- The loop that reads a document. -/
def reader (limits : Limits) : Loop Reading ReadFault Datum where
  turn := Reading.turn limits
  weight r := r.rest.length
  lowers := turn_shortens

/-- The data of a whole document that is well formed and within limits. -/
def readWithin (limits : Limits) (document : String) : Except ReadFault Datum :=
  (reader limits).run ⟨[], none, document.toList⟩

end Datum

end Afx
