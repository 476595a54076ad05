import ConfigAudit.Json.Basic
import ConfigAudit.Text.Reader

/-!
# Reading JSON

Exactly one value with blanks around it. Of repeated members the last one counts, at the position of
the first. Containers may be nested up to `maxDepth` levels.

A number without fraction and exponent is whole if it fits in 64 bits. Any other number takes as
many leading digits as fit in 64 bits, rounds them to a double, and scales the double by a power of
ten; digits beyond those only count as places. A number too large for a double is refused.
-/

namespace ConfigAudit.Json

open ConfigAudit.Reader

/-- Levels of arrays and objects that may be nested. -/
def maxDepth : Nat := 127

/-- The largest significand. -/
def maxSignificand : Nat := 0xffffffffffffffff

/-- The white space of JSON. -/
def isBlank (c : Char) : Bool := c = ' ' || c = '\t' || c = '\n' || c = '\r'

/-- Skip white space. -/
def blanks : Reader Unit := do let _ ← run isBlank

/-- The value of a decimal digit. -/
def digitValue (c : Char) : Nat := c.toNat - 48

/-- Append digits to a significand while it stays in 64 bits; the digits left over are returned. -/
def absorb : Nat → List Char → Nat × List Char
  | n, [] => (n, [])
  | n, d :: ds =>
    let m := n * 10 + digitValue d
    if m ≤ maxSignificand then absorb m ds else (n, d :: ds)

/-- Scale a double by a power of ten, in steps that are powers of ten of doubles. The first argument
bounds the steps down: after four of them every significand has become zero. -/
def scaleByTen : Nat → Double → Int → Option Double
  | fuel, x, e =>
    if e.natAbs ≤ 308 then
      let power := Double.ofDecimal false 1 e.natAbs
      if 0 ≤ e then
        let y := x.mul power
        if y.isFinite then some y else none
      else some (x.div power)
    else if x = Double.zero then some x
    else if 0 ≤ e then none
    else match fuel with
      | 0 => some Double.zero
      | fuel + 1 => scaleByTen fuel (x.div (Double.ofDecimal false 1 308)) (e + 308)

/-- A number as it is written: the digits before the point, and the digits after it with the
exponent, unless there is neither. -/
structure Numeral where
  negative : Bool
  whole : List Char
  tail : Option (List Char × Int)
  deriving DecidableEq, Repr

/-- The number that a numeral stands for. -/
def Numeral.number? (numeral : Numeral) : Option Number :=
  let (n, skipped) := absorb 0 numeral.whole
  match numeral.tail with
  | none =>
    if skipped.isEmpty then
      if !numeral.negative then some (.whole n)
      else if n = 0 ∨ 0x8000000000000000 < n then some (.real (Double.ofNat n).neg)
      else some (.whole (-(n : Int)))
    else (scaleByTen 4 (Double.ofNat n) skipped.length).map fun x =>
      .real (if numeral.negative then x.neg else x)
  | some (fraction, exponent) =>
    let (m, unused) := absorb n fraction
    let places : Int := (skipped.length : Int) - ((fraction.length - unused.length : Nat) : Int)
    (scaleByTen 4 (Double.ofNat m) (places + exponent)).map fun x =>
      .real (if numeral.negative then x.neg else x)

/-- The fraction of a numeral, if there is one: a point and at least one digit. -/
def fractionPart : Reader (Option (List Char)) := do
  if ← looksLike (· = '.') then
    char '.'
    let digits ← run Char.isDigit
    if digits.isEmpty then failure
    pure (some digits)
  else pure none

/-- The exponent of a numeral, if there is one: a letter, possibly a sign, and at least one
digit. -/
def exponentPart : Reader (Option Int) := do
  if ← looksLike fun c => c = 'e' || c = 'E' then
    let _ ← any
    let sign ← peek
    if sign = '+' ∨ sign = '-' then let _ ← any
    let digits ← run Char.isDigit
    if digits.isEmpty then failure
    let e : Int := Nat.ofDigitChars 10 digits 0
    pure (some (if sign = '-' then -e else e))
  else pure none

/-- What follows the whole digits, unless there is nothing. -/
def numeralTail : Option (List Char) → Option Int → Option (List Char × Int)
  | none, none => none
  | fraction, exponent => some (fraction.getD [], exponent.getD 0)

/-- A numeral. Its whole digits begin with zero only if they are a single zero. -/
def readNumeral : Reader Numeral := do
  let negative ← looksLike (· = '-')
  if negative then char '-'
  let whole ← run Char.isDigit
  if whole.isEmpty ∨ (whole.head? = some '0' ∧ 1 < whole.length) then failure
  let fraction ← fractionPart
  let exponent ← exponentPart
  pure ⟨negative, whole, numeralTail fraction exponent⟩

/-- A number, converted from its numeral in a given way. -/
def readNumber (convert : Numeral → Option Number) : Reader Number := do
  match convert (← readNumeral) with
  | some n => pure n
  | none => failure

/-- The value of a hexadecimal digit. -/
def hexValue? (c : Char) : Option Nat :=
  if c.isDigit then some (c.toNat - 48)
  else if 'a' ≤ c ∧ c ≤ 'f' then some (c.toNat - 87)
  else if 'A' ≤ c ∧ c ≤ 'F' then some (c.toNat - 55)
  else none

/-- One hexadecimal digit. -/
def hexDigitValue : Reader Nat := do
  match hexValue? (← any) with
  | some n => pure n
  | none => failure

/-- Four hexadecimal digits. -/
def hex4 : Reader Nat := do
  let a ← hexDigitValue
  let b ← hexDigitValue
  let c ← hexDigitValue
  let d ← hexDigitValue
  pure (((a * 16 + b) * 16 + c) * 16 + d)

/-- The character of one or two units of 16 bits after `\u`; a unit of a pair alone is refused. -/
def unicodeEscape : Reader Char := do
  let high ← hex4
  if 0xDC00 ≤ high ∧ high ≤ 0xDFFF then failure
  else if 0xD800 ≤ high ∧ high ≤ 0xDBFF then
    word "\\u"
    let low ← hex4
    if low < 0xDC00 ∨ 0xDFFF < low then failure
    pure (Char.ofNat (0x10000 + (high - 0xD800) * 0x400 + (low - 0xDC00)))
  else pure (Char.ofNat high)

/-- The character after a backslash. -/
def escapeSequence : Reader Char := do
  match ← any with
  | '"' => pure '"'
  | '\\' => pure '\\'
  | '/' => pure '/'
  | 'b' => pure (Char.ofNat 8)
  | 'f' => pure (Char.ofNat 12)
  | 'n' => pure '\n'
  | 'r' => pure '\r'
  | 't' => pure '\t'
  | 'u' => unicodeEscape
  | _ => failure

/-- One character of a string, or the closing quote. What was read before comes last first. -/
def stringStep (before : List Char) : Reader (List Char ⊕ String) := do
  let c ← any
  if c = '"' then pure (.inr (String.ofList before.reverse))
  else if c = '\\' then
    let d ← escapeSequence
    pure (.inl (d :: before))
  else if c.toNat < 32 then failure
  else pure (.inl (c :: before))

/-- A quoted string. -/
def readString : Reader String := do
  char '"'
  iterate stringStep []

/-- One item of an array, and the comma or bracket after it. The items before come last first. -/
def itemStep (value : Reader Json) (before : List Json) : Reader (List Json ⊕ List Json) := do
  let j ← value
  blanks
  match ← any with
  | ',' =>
    blanks
    pure (.inl (j :: before))
  | ']' => pure (.inr (j :: before).reverse)
  | _ => failure

/-- The items of an array up to its closing bracket. -/
def readItems (value : Reader Json) : Reader (List Json) := do
  blanks
  if ← looksLike (· = ']') then
    char ']'
    pure []
  else iterate (itemStep value) []

/-- One member of an object, and the comma or brace after it. -/
def memberStep (value : Reader Json) (before : OrderedMap Json) :
    Reader (OrderedMap Json ⊕ OrderedMap Json) := do
  let key ← readString
  blanks
  char ':'
  blanks
  let j ← value
  blanks
  match ← any with
  | ',' =>
    blanks
    pure (.inl (before.insert key j))
  | '\x7d' => pure (.inr (before.insert key j))
  | _ => failure

/-- The members of an object up to its closing brace. -/
def readMembers (value : Reader Json) : Reader (OrderedMap Json) := do
  blanks
  if ← looksLike (· = '\x7d') then
    char '\x7d'
    pure []
  else iterate (memberStep value) []

/-- The value that begins with a character. Items and members are read by the given reader; without
one there are no containers. -/
def readFrom (convert : Numeral → Option Number) (value : Option (Reader Json)) :
    Char → Reader Json
  | 'n' => do word "null"; pure Json.null
  | 't' => do word "true"; pure (Json.bool true)
  | 'f' => do word "false"; pure (Json.bool false)
  | '"' => do pure (Json.string (← readString))
  | '[' =>
    match value with
    | none => failure
    | some value => do
      char '['
      pure (Json.array (← readItems value))
  | '\x7b' =>
    match value with
    | none => failure
    | some value => do
      char '\x7b'
      pure (Json.object (← readMembers value))
  | _ => do pure (Json.number (← readNumber convert))

/-- One value with containers nested at most to a depth. -/
def readValue (convert : Numeral → Option Number) : Nat → Reader Json
  | 0 => do readFrom convert none (← peek)
  | depth + 1 => do readFrom convert (some (readValue convert depth)) (← peek)

/-- The value of a JSON text, with numerals converted in a given way and containers nested at most
to a depth. -/
def parseWith? (convert : Numeral → Option Number) (depth : Nat) (text : String) : Option Json :=
  readAll (do blanks; let j ← readValue convert depth; blanks; pure j) text.toList

/-- The value of a JSON text. -/
def parse? (text : String) : Option Json := parseWith? Numeral.number? maxDepth text

end ConfigAudit.Json
