import ConfigAudit.Double.Basic

/-!
# Arithmetic of doubles

Every operation on finite doubles computes its exact result over a common power of two and rounds
it once. The remainder has the sign of the left operand and needs no rounding.
-/

namespace ConfigAudit.Double

/-- The double nearest to `n * 2 ^ e`; an exact zero takes the given sign. -/
def ofScaledInt (zeroSign : Bool) (n : Int) (e : Int) : Double :=
  let s := if n = 0 then zeroSign else decide (n < 0)
  let (num, den) := scaleByTwo n.natAbs 1 e
  ofRatio s num den

/-- Addition. -/
def add : Double → Double → Double
  | .nan, _ => .nan
  | _, .nan => .nan
  | .infinite s, .infinite s' => if s = s' then .infinite s else .nan
  | .infinite s, .finite .. => .infinite s
  | .finite .., .infinite s => .infinite s
  | .finite s m e, .finite s' m' e' =>
    let (a, b, low) := align s m e s' m' e'
    ofScaledInt (s && s') (a + b) low

/-- Subtraction. -/
def sub (x y : Double) : Double := add x (neg y)

/-- Multiplication. -/
def mul : Double → Double → Double
  | .nan, _ => .nan
  | _, .nan => .nan
  | .infinite s, .infinite s' => .infinite (xor s s')
  | .infinite s, .finite s' m _ => if m = 0 then .nan else .infinite (xor s s')
  | .finite s m _, .infinite s' => if m = 0 then .nan else .infinite (xor s s')
  | .finite s m e, .finite s' m' e' =>
    let (num, den) := scaleByTwo (m * m') 1 (e + e')
    ofRatio (xor s s') num den

/-- Division. -/
def div : Double → Double → Double
  | .nan, _ => .nan
  | _, .nan => .nan
  | .infinite _, .infinite _ => .nan
  | .infinite s, .finite s' _ _ => .infinite (xor s s')
  | .finite s _ _, .infinite s' => .finite (xor s s') 0 0
  | .finite s m e, .finite s' m' e' =>
    if m' = 0 then if m = 0 then .nan else .infinite (xor s s')
    else
      let (num, den) := scaleByTwo m m' (e - e')
      ofRatio (xor s s') num den

/-- The remainder of the division toward zero. -/
def rem : Double → Double → Double
  | .nan, _ => .nan
  | _, .nan => .nan
  | .infinite _, _ => .nan
  | x@(.finite ..), .infinite _ => x
  | .finite s m e, .finite s' m' e' =>
    if m' = 0 then .nan
    else
      let (a, b, low) := align s m e s' m' e'
      ofScaledInt s (a.tmod b) low

end ConfigAudit.Double
