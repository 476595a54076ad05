import ConfigAudit.Double.Shortest

/-!
# Layout of doubles

The shortest decimal of a double is written positionally while the exponent of its first digit lies
in a range, and in exponent form outside it. A layout fixes the range and whether a positive
exponent carries a plus sign. Positional whole numbers end in `.0`; exponent forms never do.
-/

namespace ConfigAudit

/-- How doubles are written: positionally if the exponent of the first digit is in a range, else
with an exponent, which may have a plus sign. -/
structure Layout where
  lowest : Int
  highest : Int
  plusSign : Bool

namespace Layout

/-- Numbers in JSON text: `1e+16`, `0.00001`, `1e-6`. -/
def json : Layout := { lowest := -5, highest := 15, plusSign := true }

/-- Numbers in interpolated strings and YAML: `1e16`, `0.00001`, `1e-6`. -/
def plain : Layout := { lowest := -5, highest := 15, plusSign := false }

/-- Numbers shown for inspection: `1e16`, `0.0001`, `1e-5`. -/
def inspection : Layout := { lowest := -4, highest := 15, plusSign := false }

/-- Digits with a decimal point after the place of the given exponent of the first digit. -/
def positional (digits : List Char) (exponent : Int) : List Char :=
  if exponent < 0 then
    '0' :: '.' :: (List.replicate (-exponent - 1).toNat '0' ++ digits)
  else
    let whole := exponent.toNat + 1
    if digits.length ≤ whole then
      digits ++ List.replicate (whole - digits.length) '0' ++ ['.', '0']
    else digits.take whole ++ '.' :: digits.drop whole

/-- Digits with the point after the first one, and an exponent. -/
def scientific (layout : Layout) (digits : List Char) (exponent : Int) : List Char :=
  let mantissa := match digits with
    | [] => []
    | [d] => [d]
    | d :: rest => d :: '.' :: rest
  let sign := if exponent < 0 then ['-'] else if layout.plusSign then ['+'] else []
  mantissa ++ 'e' :: (sign ++ Nat.toDigits 10 exponent.natAbs)

/-- The text of a positive decimal. -/
def decimal (layout : Layout) (d : Decimal) : List Char :=
  let exponent := d.scientific
  if layout.lowest ≤ exponent ∧ exponent ≤ layout.highest then positional d.digitChars exponent
  else layout.scientific d.digitChars exponent

/-- The text of a double. -/
def render (layout : Layout) : Double → String
  | .nan => "NaN"
  | .infinite s => if s then "-inf" else "inf"
  | .finite s m e =>
    let sign := if s then ['-'] else []
    if m = 0 then String.ofList (sign ++ ['0', '.', '0'])
    else String.ofList (sign ++ layout.decimal (Double.shortest m e))

end Layout

end ConfigAudit
