import ConfigAudit.Number
import ConfigAudit.Text.Reader

/-!
# Numerals

Digits, an optional fraction and an optional exponent. Whole numerals have to fit in 64 bits, all
others in the range of doubles. A point without a digit after it does not belong to the numeral.
-/

namespace ConfigAudit.Syntax

open ConfigAudit.Reader

/-- The natural number written with decimal digits. -/
def decimalValue (digits : List Char) : Nat := digits.foldl (fun n d => n * 10 + (d.toNat - 48)) 0

/-- The digits of a fraction, if a point followed by a digit comes next. -/
def fractionDigits : Reader (List Char) := do
  match ← rest with
  | '.' :: c :: _ =>
    if c.isDigit then
      skip 1
      run Char.isDigit
    else pure []
  | _ => pure []

/-- The value of an exponent, if a complete one comes next. -/
def exponentValue : Reader (Option Int) := attempt (do
  let c ← any
  if c ≠ 'e' ∧ c ≠ 'E' then failure
  let sign ← peek
  if sign = '+' ∨ sign = '-' then skip 1
  let digits ← run Char.isDigit
  if digits.isEmpty then failure
  let n : Int := decimalValue digits
  pure (if sign = '-' then -n else n))

/-- A numeral without sign. -/
def numeral : Reader Number := do
  let whole ← run Char.isDigit
  if whole.isEmpty then failure
  let fraction ← fractionDigits
  let exponent ← exponentValue
  if fraction.isEmpty ∧ exponent.isNone then
    match Number.ofInt? (decimalValue whole) with
    | some n => pure n
    | none => failure
  else
    let e := exponent.getD 0 - (fraction.length : Int)
    match Number.ofDouble? (Double.ofDecimal false (decimalValue (whole ++ fraction)) e) with
    | some n => pure n
    | none => failure

/-- The position in a traversal step: zero, or digits that do not begin with zero, within 64
bits. -/
def position : Reader Nat := do
  if ← looksLike (· = '0') then
    char '0'
    pure 0
  else
    let digits ← run Char.isDigit
    let n := decimalValue digits
    if digits.isEmpty ∨ Number.maxWhole < (n : Int) then failure
    pure n

end ConfigAudit.Syntax
