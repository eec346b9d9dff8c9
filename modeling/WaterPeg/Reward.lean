import WaterPeg.Measurement
import WaterPeg.Units
import WaterPeg.Word

/-! What a measurement earns, in minor units. -/
namespace WaterPeg.Reward

def base : MeasurementKind → Nat
  | .waterPrice | .exchangeRate => 5000
  | .waterPriceOffline | .exchangeRateOffline => 3000
  | .urlSubmission => 2000
  | .onlineValidation => 1000

/-- Half, and half of the reputation on top, at most one and a half, in parts per million. -/
def factor (reputation : UInt64) : Nat :=
  min (500000 + reputation.toNat / 2) 1500000

def amount (kind : MeasurementKind) (reputation : UInt64) : Nat :=
  base kind * factor reputation / ppm

end WaterPeg.Reward
