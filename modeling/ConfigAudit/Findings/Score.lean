/-!
# Scores

The share of passed findings in percent, rounded down, computed in words of 64 bits. The product
with one hundred is taken before the division. A build that checks for overflow stops if the product
leaves the range of words; any other build divides what is left of it.
-/

namespace ConfigAudit

/-- The score of a number of passed findings out of a total, without checks for overflow; without
findings it is zero. -/
def score (passed total : UInt64) : UInt8 :=
  if total = 0 then 0 else (min passed total * 100 / total).toUInt8

/-- The product of two words, unless it leaves the range of words. -/
def mulWord? (a b : UInt64) : Option UInt64 :=
  if a.toNat * b.toNat < UInt64.size then some (a * b) else none

/-- The score with checks for overflow; there is none if they stop the program. -/
def score? (passed total : UInt64) : Option UInt8 :=
  if total = 0 then some 0
  else (mulWord? (min passed total) 100).map fun product => (product / total).toUInt8

end ConfigAudit
