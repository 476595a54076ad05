/-!
# Double-precision numbers

A double is not a number, an infinity, or a signed dyadic `mantissa * 2 ^ exponent`. Finite doubles
are kept in canonical form: the mantissa is odd, or mantissa and exponent are both zero. All
arithmetic on them is exact arithmetic of natural numbers followed by one rounding,
`Double.ofRatio`.

* `ofRatio`: the double nearest to a quotient, ties to the even neighbour;
* `ofInt`, `toInt?`: whole numbers, exact up to `2 ^ 53` in absolute value;
* `numEq`, `numLt`: the comparisons of numbers, which identify the two zeros and reject `nan`.
-/

namespace ConfigAudit

/-- A double-precision binary floating-point number; a finite one is `± mantissa * 2 ^ exponent`. -/
inductive Double
  | nan
  | infinite (negative : Bool)
  | finite (negative : Bool) (mantissa : Nat) (exponent : Int)
  deriving DecidableEq, Repr, Inhabited

namespace Double

/-- Positive zero. -/
def zero : Double := .finite false 0 0

/-- The exponent of the last place, counted from the first, of a full mantissa. -/
def fractionBits : Int := 52

/-- The exponent of the last place of the smallest doubles. -/
def minExponent : Int := -1074

/-- All doubles are below this power of two. -/
def exponentLimit : Int := 1024

/-- Divide by two while even, counting the divisions in the exponent. The first argument bounds
their number. -/
def stripTwos : Nat → Nat → Int → Nat × Int
  | 0, m, e => (m, e)
  | fuel + 1, m, e => if m % 2 = 0 then stripTwos fuel (m / 2) (e + 1) else (m, e)

/-- The canonical form of `± mantissa * 2 ^ exponent`, without rounding. -/
def normalize (negative : Bool) (mantissa : Nat) (exponent : Int) : Double :=
  if mantissa = 0 then .finite negative 0 0
  else
    let (m, e) := stripTwos mantissa.log2 mantissa exponent
    .finite negative m e

/-- The quotient of two natural numbers, rounded to the nearest whole number, ties to even. -/
def roundHalfEven (num den : Nat) : Nat :=
  let q := num / den
  let r := num % den
  if 2 * r < den then q
  else if den < 2 * r then q + 1
  else if q % 2 = 0 then q else q + 1

/-- `num * 2 ^ shift / den` as a fraction of natural numbers. -/
def scaleByTwo (num den : Nat) (shift : Int) : Nat × Nat :=
  if 0 ≤ shift then (num * Nat.pow 2 shift.toNat, den)
  else (num, den * Nat.pow 2 (-shift).toNat)

/-- The largest `e` with `2 ^ e ≤ num / den`, for positive arguments. -/
def floorLog2 (num den : Nat) : Int :=
  let guess : Int := (num.log2 : Int) - (den.log2 : Int)
  let (n, d) := scaleByTwo num den (-guess)
  if n < d then guess - 1 else guess

/-- The double nearest to `± num / den`, ties to the even mantissa. -/
def ofRatio (negative : Bool) (num den : Nat) : Double :=
  if num = 0 ∨ den = 0 then .finite negative 0 0
  else
    let last := max (floorLog2 num den - fractionBits) minExponent
    let (n, d) := scaleByTwo num den (-last)
    let m := roundHalfEven n d
    if exponentLimit ≤ (m.log2 : Int) + last then .infinite negative
    else normalize negative m last

/-- The double nearest to a natural number. -/
def ofNat (n : Nat) : Double := ofRatio false n 1

/-- The double nearest to a whole number. -/
def ofInt (n : Int) : Double := ofRatio (decide (n < 0)) n.natAbs 1

/-- The double nearest to `± digits * 10 ^ exponent`. Exponents far outside the range of doubles
are decided without computing the power. -/
def ofDecimal (negative : Bool) (digits : Nat) (exponent : Int) : Double :=
  if digits = 0 then .finite negative 0 0
  else
    let size : Int := (digits.log2 : Int)
    if 320 < exponent + size / 4 then .infinite negative
    else if exponent + size / 3 + 1 < -340 then .finite negative 0 0
    else if 0 ≤ exponent then ofRatio negative (digits * Nat.pow 10 exponent.toNat) 1
    else ofRatio negative digits (Nat.pow 10 (-exponent).toNat)

/-- Neither infinite nor `nan`. -/
def isFinite : Double → Bool
  | .finite .. => true
  | _ => false

/-- The opposite number. -/
def neg : Double → Double
  | .nan => .nan
  | .infinite s => .infinite !s
  | .finite s m e => .finite (!s) m e

/-- A whole number with a sign. -/
def signed (negative : Bool) (n : Nat) : Int := if negative then -(n : Int) else n

/-- The whole number that a finite double is equal to, if there is one. -/
def toInt? : Double → Option Int
  | .finite s m e =>
    if 0 ≤ e then some (signed s (m * Nat.pow 2 e.toNat))
    else if m % Nat.pow 2 (-e).toNat = 0 then some (signed s (m / Nat.pow 2 (-e).toNat))
    else none
  | _ => none

/-- The whole part of a finite double, toward zero. -/
def truncate? : Double → Option Int
  | .finite s m e =>
    if 0 ≤ e then some (signed s (m * Nat.pow 2 e.toNat))
    else some (signed s (m / Nat.pow 2 (-e).toNat))
  | _ => none

/-- Two finite doubles as numerators over the common denominator `2 ^ -e`. -/
def align (s : Bool) (m : Nat) (e : Int) (s' : Bool) (m' : Nat) (e' : Int) : Int × Int × Int :=
  let low := min e e'
  (signed s (m * Nat.pow 2 (e - low).toNat), signed s' (m' * Nat.pow 2 (e' - low).toNat), low)

/-- Equality of numbers: the zeros are equal, `nan` is equal to nothing. -/
def numEq : Double → Double → Bool
  | .infinite s, .infinite s' => s == s'
  | .finite s m e, .finite s' m' e' =>
    let (a, b, _) := align s m e s' m' e'
    a == b
  | _, _ => false

/-- The order of numbers; `nan` is below and above nothing. -/
def numLt : Double → Double → Bool
  | .nan, _ => false
  | _, .nan => false
  | .infinite s, .infinite s' => s && !s'
  | .infinite s, .finite .. => s
  | .finite .., .infinite s' => !s'
  | .finite s m e, .finite s' m' e' =>
    let (a, b, _) := align s m e s' m' e'
    decide (a < b)

end Double

end ConfigAudit
