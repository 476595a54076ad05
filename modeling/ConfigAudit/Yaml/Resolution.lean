import ConfigAudit.Double.Basic
import ConfigAudit.Syntax.Numeral

/-!
# How plain text reads back

A plain scalar that spells null, a truth value or a number is read back as that. Strings of such
texts have to be quoted, and so have digits with leading zeros, which readers take in different
ways.

* whole numbers: a sign and decimal digits, or `0x`, `0o` and `0b` with digits of the base, within
  128 bits;
* other numbers: a point in any place among the digits, an exponent, `.inf` and `.nan`. Numbers
  beyond the range of doubles stay text.
-/

namespace ConfigAudit.Yaml

open Reader

/-- The spellings of null. -/
def isNull (s : String) : Bool := s ∈ ["", "~", "null", "Null", "NULL"]

/-- The spellings of the truth values. -/
def isBool (s : String) : Bool := s ∈ ["true", "True", "TRUE", "false", "False", "FALSE"]

/-- The value of a digit of any base up to sixteen. -/
def digitValue? (c : Char) : Option Nat :=
  if '0' ≤ c && c ≤ '9' then some (c.toNat - 48)
  else if 'a' ≤ c && c ≤ 'f' then some (c.toNat - 87)
  else if 'A' ≤ c && c ≤ 'F' then some (c.toNat - 55)
  else none

/-- The natural number that digits of a base spell. -/
def naturalOf? (base : Nat) (digits : List Char) : Option Nat :=
  if digits.isEmpty then none
  else digits.foldlM (fun n c => do
    let d ← digitValue? c
    if d < base then some (n * base + d) else none) 0

/-- The base that a letter after a zero announces. -/
def baseOf? : Char → Option Nat
  | 'x' => some 16
  | 'o' => some 8
  | 'b' => some 2
  | _ => none

/-- Take off a sign; true for a minus. -/
def unsigned : List Char → Bool × List Char
  | '+' :: cs => (false, cs)
  | '-' :: cs => (true, cs)
  | cs => (false, cs)

/-- Whole numbers with a base in front, within 128 bits. -/
def isBasedNumber (s : List Char) : Bool :=
  let (negative, cs) := unsigned s
  match cs with
  | '0' :: c :: digits =>
    match (baseOf? c).bind (naturalOf? · digits) with
    | some n => if negative then n ≤ Nat.pow 2 127 else n < Nat.pow 2 128
    | none => false
  | _ => false

/-- More than one digit, the first of them zero, with or without a sign. -/
def hasLeadingZero (s : List Char) : Bool :=
  match (unsigned s).2 with
  | '0' :: c :: cs => (c :: cs).all Char.isDigit
  | _ => false

/-- A decimal number without its sign. -/
def decimal : Reader Double := do
  let whole ← run Char.isDigit
  let point ← attempt (char '.')
  let fraction ← if point.isSome then run Char.isDigit else pure []
  if whole.isEmpty && fraction.isEmpty then failure
  let exponent ← Syntax.exponentValue
  pure (Double.ofDecimal false (Syntax.decimalValue (whole ++ fraction))
    (exponent.getD 0 - (fraction.length : Int)))

/-- Decimal numbers within the range of doubles, infinities and `nan`. -/
def isDecimalNumber (s : List Char) : Bool :=
  let cs := (unsigned s).2
  let named := String.ofList cs
  match readAll decimal cs with
  | some x => x.isFinite
  | none =>
    named ∈ [".inf", ".Inf", ".INF"] || String.ofList s ∈ [".nan", ".NaN", ".NAN"]

/-- Whether the plain text of a string is read back as something else. -/
def isAmbiguous (s : String) : Bool :=
  isNull s || isBool s || isBasedNumber s.toList || hasLeadingZero s.toList ||
    isDecimalNumber s.toList

end ConfigAudit.Yaml
