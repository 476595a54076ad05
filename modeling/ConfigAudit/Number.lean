import ConfigAudit.Double.Arithmetic
import ConfigAudit.Double.Layout

/-!
# Numbers

A number is a whole number of 64 bits, non-negative or negative, or a double. Operations on two
numbers of one kind stay in that kind; on different kinds they go through doubles. A double result
that is whole and fits in 64 bits becomes a whole number again.
-/

namespace ConfigAudit

/-- A number as it is read and computed: a whole number from `-2 ^ 63` up to `2 ^ 64 - 1`, or a
double that is not such a number. -/
inductive Number
  | whole (n : Int)
  | real (x : Double)
  deriving DecidableEq, Repr, Inhabited

namespace Number

/-- The smallest whole number of 64 bits. -/
def minWhole : Int := -0x8000000000000000

/-- The largest signed whole number of 64 bits. -/
def maxSigned : Int := 0x7fffffffffffffff

/-- The largest whole number of 64 bits. -/
def maxWhole : Int := 0xffffffffffffffff

/-- Whether a whole number fits in 64 bits. -/
def inRange (n : Int) : Bool := minWhole ≤ n && n ≤ maxWhole

/-- A whole number, if it fits. -/
def ofInt? (n : Int) : Option Number := if inRange n then some (.whole n) else none

/-- The number equal to a finite double. -/
def ofDouble? (x : Double) : Option Number :=
  if x.isFinite then
    match x.toInt? with
    | some n => if inRange n then some (.whole n) else some (.real x)
    | none => some (.real x)
  else none

/-- The nearest double. -/
def toDouble : Number → Double
  | .whole n => Double.ofInt n
  | .real x => x

/-- Whether two whole numbers are both negative or both not. -/
def sameSign (m n : Int) : Bool := decide (m < 0) == decide (n < 0)

/-- Apply a whole-number operation within one kind and a double operation across kinds. -/
def combine (onWhole : Int → Int → Option Int) (onReal : Double → Double → Double) :
    Number → Number → Option Number
  | .whole m, .whole n =>
    if sameSign m n then (onWhole m n).bind ofInt?
    else ofDouble? (onReal (Double.ofInt m) (Double.ofInt n))
  | a, b => ofDouble? (onReal a.toDouble b.toDouble)

/-- Addition. -/
def add : Number → Number → Option Number := combine (fun m n => some (m + n)) Double.add

/-- Subtraction. -/
def sub : Number → Number → Option Number := combine (fun m n => some (m - n)) Double.sub

/-- Multiplication. -/
def mul : Number → Number → Option Number := combine (fun m n => some (m * n)) Double.mul

/-- Division, always of doubles. -/
def div (a b : Number) : Option Number := ofDouble? (a.toDouble.div b.toDouble)

/-- Remainder, with the sign of the left operand. -/
def rem : Number → Number → Option Number :=
  combine (fun m n => if n = 0 then none else some (m.tmod n)) Double.rem

/-- The opposite number; a whole number without opposite in 64 bits becomes a double. -/
def neg : Number → Number
  | .whole n => if inRange (-n) then .whole (-n) else .real (Double.ofInt n).neg
  | .real x => .real x.neg

/-- Compare whole numbers of one sign exactly and all others as doubles. -/
def compareBy (onWhole : Int → Int → Bool) (onReal : Double → Double → Bool) :
    Number → Number → Bool
  | .whole m, .whole n =>
    if sameSign m n then onWhole m n else onReal (Double.ofInt m) (Double.ofInt n)
  | a, b => onReal a.toDouble b.toDouble

/-- Equality of numbers. -/
def numEq : Number → Number → Bool := compareBy (fun m n => m == n) Double.numEq

/-- The order of numbers. -/
def numLt : Number → Number → Bool := compareBy (fun m n => decide (m < n)) Double.numLt

/-- The text of a whole number. -/
def wholeChars (n : Int) : List Char :=
  if n < 0 then '-' :: Nat.toDigits 10 n.natAbs else Nat.toDigits 10 n.natAbs

/-- The text of a number, with doubles in the given layout. -/
def render (layout : Layout) : Number → String
  | .whole n => String.ofList (wholeChars n)
  | .real x => layout.render x

end Number

end ConfigAudit
