/-!
# Shortest Decimals

A binary fraction is shown by the fewest decimal digits that read back as the
same number, and of those by the ones nearest to it. Every real number between
the two midpoints around a binary fraction reads back as it, the midpoints
themselves exactly when its significand is even, so the digits are found on the
first decimal grid that has a point in that interval. The two grid points next
to the number are enough to look at: if a grid has any point in the interval,
one of these two is in it.

All quantities are whole multiples of a quarter of the number's last binary
place, so the comparisons are exact.

## Main definitions

* `Significand`: A positive number as a whole multiple of a power of two.
* `Significand.shortest`: Its digits and the power of ten they are multiples of.
* `Decimal.text`: The text of a binary fraction.
-/

namespace Afx

namespace Decimal

/-- The positive number `digits * 2 ^ scale`; `narrow` says that the numbers
    below it lie twice as close as those above it. -/
structure Significand where
  digits : Nat
  scale : Int
  narrow : Bool

/-- Multiplies by a power of two or ten with any exponent, as numerator and denominator. -/
def scaled (base : Nat) (exponent : Int) : Nat × Nat :=
  if 0 ≤ exponent then (base.pow exponent.toNat, 1) else (1, base.pow (-exponent).toNat)

/-- The power of ten next above the fraction `n / d`, which must be positive:
    `10 ^ (e - 1) ≤ n / d < 10 ^ e`. -/
def magnitude (n d : Nat) : Int :=
  if d ≤ n then (Nat.toDigits 10 (n / d)).length
  else
    let zeros := (List.range 400).find? fun j => d ≤ n * Nat.pow 10 (j + 1)
    Int.negOfNat (zeros.getD 0)

namespace Significand

/-- The grid of multiples of `10 ^ g`: the nearest multiple that still reads
    back as the number, if there is one. -/
def onGrid? (s : Significand) (g : Int) : Option Nat :=
  -- In units of `1 / (d2 * d10)`, a quarter of the last binary place is `n2 * d10`
  -- and a step of the grid is `d2 * n10`.
  let (n2, d2) := scaled 2 (s.scale - 2)
  let (n10, d10) := scaled 10 g
  let unit := d2 * n10
  let quarters (k : Nat) : Nat := k * n2 * d10
  let value := quarters (4 * s.digits)
  -- The ends of the interval that reads back as the number.
  let low := quarters (4 * s.digits - if s.narrow then 1 else 2)
  let high := quarters (4 * s.digits + 2)
  let closed := s.digits % 2 == 0
  -- The two points of the grid next to the number.
  let below := value / unit
  let above := below + 1
  let belowFits := if closed then decide (low ≤ below * unit) else decide (low < below * unit)
  let aboveFits := if closed then decide (above * unit ≤ high) else decide (above * unit < high)
  let down := value - below * unit
  let up := above * unit - value
  match belowFits, aboveFits with
  | false, false => none
  | true, false => some below
  | false, true => some above
  | true, true => some (if down < up || (down == up && below % 2 == 0) then below else above)

/-- The fewest digits that read back as the number, with the power of ten of
    the last one. Seventeen digits are always enough. -/
def shortest (s : Significand) : Nat × Int :=
  let (n, d) := scaled 2 s.scale
  let top := magnitude (s.digits * n) d
  let found := (List.range 17).findSome? fun (k : Nat) =>
    let g := top - (k + 1)
    (s.onGrid? g).map fun digits => (digits, g)
  found.getD (s.digits, 0)

end Significand

/-- How far from the point the leading digit may stand in positional text:
    a number from `10 ^ -4` up to `10 ^ 16` is written without an exponent. -/
def isPositional (exponent : Int) : Bool :=
  -4 ≤ exponent && exponent < 16

/-- The text of the positive number `digits * 10 ^ power`, where `digits` ends
    in no zero. Positional text always has a digit on both sides of the point;
    an exponent has a sign and at least two digits. -/
def layout (digits : List Char) (power : Int) : List Char :=
  let point : Int := digits.length + power
  if isPositional (point - 1) then
    if point ≤ 0 then
      '0' :: '.' :: List.replicate (-point).toNat '0' ++ digits
    else if digits.length ≤ point.toNat then
      digits ++ List.replicate (point.toNat - digits.length) '0' ++ ['.', '0']
    else
      digits.take point.toNat ++ '.' :: digits.drop point.toNat
  else
    let fraction := match digits.drop 1 with
      | [] => []
      | rest => '.' :: rest
    let exponent := Nat.toDigits 10 (point - 1).natAbs
    digits.take 1 ++ fraction ++ 'e' :: (if point - 1 < 0 then '-' else '+') ::
      List.replicate (2 - exponent.length) '0' ++ exponent

/-- Leaves trailing zeros out, raising the power of ten for each. -/
def normalised (digits : Nat) (power : Int) : List Char × Int :=
  let all := Nat.toDigits 10 digits
  let kept := (all.reverse.dropWhile (· == '0')).reverse
  (kept, power + (all.length - kept.length : Nat))

/-- The least significand of full length. -/
def leastFull : Nat := 0x10000000000000

/-- The text of a binary fraction. -/
def text (x : Float) : String :=
  let bits := x.toBits.toNat
  let sign := if 0x8000000000000000 ≤ bits then "-" else ""
  -- The exponent field, with the two ends of its range for special values.
  let field : Nat := bits / leastFull % 0x800
  let fraction := bits % leastFull
  if field == 0x7ff then
    if fraction == 0 then sign ++ "inf" else "nan"
  else if field == 0 && fraction == 0 then sign ++ "0.0"
  else
    let significand : Significand :=
      if field == 0 then ⟨fraction, -1074, false⟩
      else ⟨fraction + leastFull, (field : Int) - 1075, fraction == 0 && 1 < field⟩
    let (digits, power) := significand.shortest
    let (kept, raised) := normalised digits power
    sign ++ String.ofList (layout kept raised)

end Decimal

end Afx
