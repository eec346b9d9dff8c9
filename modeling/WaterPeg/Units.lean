import WaterPeg.Binary64

/-!
Fixed-point units. Prices and rates count millionths of a unit, ratios parts per million or ten
thousandths, and amounts of money hundredths.
-/
namespace WaterPeg

/-- Micro units in 1.0. -/
def microPerUnit : Nat := 1000000

def ppm : Nat := 1000000

def basisPoints : Nat := 10000

def secondsPerDay : Nat := 86400

/-- The largest price or rate that counts as an observation: a million units. -/
def maxObservation : Nat := 1000000 * microPerUnit

/-- A decimal as micro units; refuses what is not positive or rounds outside the observable range. -/
def microOfBinary64? (x : Binary64) : Option UInt64 := do
  let n ← (x.scale microPerUnit).round?
  if 1 ≤ n ∧ n ≤ maxObservation then some (UInt64.ofNat n.toNat) else none

def microToBinary64 (micro : UInt64) : Binary64 :=
  (Binary64.ofQuotient false micro.toNat 1).unscale microPerUnit

end WaterPeg
