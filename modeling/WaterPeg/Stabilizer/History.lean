import WaterPeg.Stabilizer

/-! The records of what was paid out, and pruning them. -/
namespace WaterPeg.Stabilizer

/-- The kept records of a currency between two heights, the lowest first. -/
def historyBetween (s : Stabilizer) (currency : String) (first last : UInt64) :
    List PayoutRecord :=
  (s.history.values.filter fun r =>
    r.currency == currency && first ≤ r.blockHeight && r.blockHeight ≤ last).mergeSort
      fun a b => a.blockHeight ≤ b.blockHeight

/-- The coins of a currency in the kept records, at most the largest number of 128 bits. -/
def coinsPaid (s : Stabilizer) (currency : String) : UInt128 :=
  UInt128.ofNatClamp ((s.history.values.filter fun r => r.currency == currency).foldl
    (fun sum r => sum + r.coins.toNat) 0)

structure Statistics where
  stable : Nat
  unstable : Nat
  inactive : Nat
  totals : Totals
deriving DecidableEq

def statistics (s : Stabilizer) : Statistics where
  stable := (s.withStatus .stable).length
  unstable := (s.withStatus .unstable).length
  inactive := (s.withStatus .inactive).length
  totals := s.totals

def prune (s : Stabilizer) (height : UInt64) : Nat × Stabilizer :=
  let kept := s.history.filter fun _ r => height ≤ r.blockHeight
  (s.history.size - kept.size, { s with history := kept })

end WaterPeg.Stabilizer
