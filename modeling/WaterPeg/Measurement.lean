/-! What an invite asks for, and who answers it. -/
namespace WaterPeg

inductive MeasurementKind
  | waterPrice
  | exchangeRate
  | waterPriceOffline
  | exchangeRateOffline
  | urlSubmission
  | onlineValidation
deriving DecidableEq, Repr

namespace MeasurementKind

def isWater : MeasurementKind → Bool
  | .waterPrice | .waterPriceOffline => true
  | _ => false

def isExchange : MeasurementKind → Bool
  | .exchangeRate | .exchangeRateOffline => true
  | _ => false

/-- The byte that stands for a kind in digests and store keys. -/
def tag : MeasurementKind → UInt8
  | .waterPrice => 0
  | .exchangeRate => 1
  | .waterPriceOffline => 2
  | .exchangeRateOffline => 3
  | .urlSubmission => 4
  | .onlineValidation => 5

theorem tag_injective {a b : MeasurementKind} (h : a.tag = b.tag) : a = b := by
  revert h; cases a <;> cases b <;> decide

def label : MeasurementKind → String
  | .waterPrice => "water_price"
  | .exchangeRate => "exchange_rate"
  | .waterPriceOffline => "water_price_offline_validation"
  | .exchangeRateOffline => "exchange_rate_offline_validation"
  | .urlSubmission => "url_submission"
  | .onlineValidation => "online_validation"

end MeasurementKind

inductive Source
  | userOnline
  | userOffline
  | botOnline
  | botOffline
deriving DecidableEq, Repr

/-- Offline sources prove a place and a photo, online ones a URL. -/
def Source.isOffline : Source → Bool
  | .userOffline | .botOffline => true
  | _ => false

end WaterPeg
