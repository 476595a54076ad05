import ConfigAudit.Double.Basic

/-!
# Shortest decimal digits

The decimal of a double is the one with the fewest digits that still rounds to the double, and of
those the nearest to it. The candidates with `k` digits are the two neighbours of the double on the
grid of `k`-digit decimals; `Rounding.search` takes the first `k` for which one of them lies in
the interval of reals that round to the double.
-/

namespace ConfigAudit

/-- A positive decimal `digits * 10 ^ exponent`. -/
structure Decimal where
  digits : Nat
  exponent : Int
  deriving DecidableEq, Repr

namespace Decimal

/-- Remove trailing zeros. The first argument bounds their number. -/
def trim : Nat → Decimal → Decimal
  | 0, d => d
  | fuel + 1, d =>
    if d.digits % 10 = 0 then trim fuel ⟨d.digits / 10, d.exponent + 1⟩ else d

/-- The digits as characters. -/
def digitChars (d : Decimal) : List Char := Nat.toDigits 10 d.digits

/-- The power of ten of the first digit. -/
def scientific (d : Decimal) : Int := d.exponent + (d.digitChars.length : Int) - 1

end Decimal

namespace Double

/-- The interval of reals that round to a positive double, scaled by a common denominator: the
value is `value / den`, its neighbours in the interval reach from `low / den` to `high / den`. -/
structure Rounding where
  value : Nat
  low : Nat
  high : Nat
  den : Nat
  closed : Bool

/-- The rounding interval of `mantissa * 2 ^ exponent`, for a positive mantissa. The mantissa is
first widened to full precision; below a power of two the lower half is half as long. -/
def rounding (mantissa : Nat) (exponent : Int) : Rounding :=
  let widen : Nat := (min (fractionBits - (mantissa.log2 : Int)) (exponent - minExponent)).toNat
  let m := mantissa * Nat.pow 2 widen
  let e := exponent - (widen : Int)
  let atPower : Bool :=
    m.log2 = fractionBits.toNat && m = Nat.pow 2 fractionBits.toNat && minExponent < e
  let (num, den) := scaleByTwo 1 4 e
  { value := 4 * m * num
    low := (if atPower then 4 * m - 1 else 4 * m - 2) * num
    high := (4 * m + 2) * num
    den := den
    closed := m % 2 = 0 }

/-- Whether `num / den'` lies in the rounding interval. -/
def Rounding.contains (r : Rounding) (num den' : Nat) : Bool :=
  let low := r.low * den'
  let high := r.high * den'
  let x := num * r.den
  if r.closed then low ≤ x && x ≤ high else low < x && x < high

/-- The largest `e` with `10 ^ e ≤ num / den`, found downward from a guess that is not too small. -/
def floorLog10 (num den : Nat) : Nat → Int → Int
  | 0, e => e
  | fuel + 1, e =>
    let (n, d) := if 0 ≤ e then (num, den * Nat.pow 10 e.toNat) else (num * Nat.pow 10 (-e).toNat, den)
    if d ≤ n then e else floorLog10 num den fuel (e - 1)

/-- The nearest decimal with last digit at `10 ^ place` in the interval, if one of the two
neighbours of the value on that grid lies in it. -/
def Rounding.onGrid (r : Rounding) (place : Int) : Option Decimal :=
  let (unit, scale) :=
    if 0 ≤ place then (Nat.pow 10 place.toNat, 1) else (1, Nat.pow 10 (-place).toNat)
  let below := r.value * scale / (r.den * unit)
  let above := below + 1
  let okBelow := below != 0 && r.contains (below * unit) scale
  let okAbove := r.contains (above * unit) scale
  let twice := 2 * r.value * scale
  let middle := (below + above) * unit * r.den
  if okBelow && okAbove then
    if twice < middle || (twice == middle && below % 2 == 0) then some ⟨below, place⟩
    else some ⟨above, place⟩
  else if okBelow then some ⟨below, place⟩
  else if okAbove then some ⟨above, place⟩
  else none

/-- Try grids of growing fineness. -/
def Rounding.search (r : Rounding) : Nat → Int → Decimal
  | 0, place => ⟨0, place⟩
  | fuel + 1, place =>
    match r.onGrid place with
    | some d => d.trim 400
    | none => search r fuel (place - 1)

/-- The shortest decimal of a positive dyadic that is a double. -/
def shortest (mantissa : Nat) (exponent : Int) : Decimal :=
  let r := rounding mantissa exponent
  let guess : Int := ((mantissa.log2 : Int) + exponent) * 30103 / 100000 + 1
  let first := floorLog10 r.value r.den 3 guess
  r.search 18 first

end Double

end ConfigAudit
