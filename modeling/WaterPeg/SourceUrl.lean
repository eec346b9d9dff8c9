import WaterPeg.Digest.Sha3
import WaterPeg.Json.Form

/-! Web pages that prices are read from, and how reliable they have been. -/
namespace WaterPeg

/-- A registered page. Reliability is a moving average of check outcomes in parts per million. -/
structure SourceUrl where
  id : Digest
  url : String
  kind : MeasurementKind
  /-- The currency it quotes, or none for all. -/
  currency : Option String
  submitter : String
  validators : List String
  lastChecked : UInt64
  isActive : Bool
  reliability : UInt64
  checkCount : UInt64
  blockHeight : UInt64
deriving DecidableEq

namespace SourceUrl

def preimage (url : String) (kind : MeasurementKind) (currency : Option String) : Bytes :=
  Bytes.ofString "OPEG_URL_V1" ++ [kind.tag] ++ Bytes.framed (Bytes.ofString (currency.getD ""))
    ++ Bytes.ofString url

def idOf (url : String) (kind : MeasurementKind) (currency : Option String) : Digest :=
  sha3 (preimage url kind currency)

/-- Nine tenths of the reliability so far and one tenth for a check that succeeded. -/
def nextReliability (current : UInt64) (success : Bool) : UInt64 :=
  UInt64.ofNat ((900000 * current.toNat + 100000 * (if success then 1000000 else 0)) / 1000000)

/-- The page after a check. Below the floor it is deactivated, and stays so. -/
def afterCheck (u : SourceUrl) (success : Bool) (now floor : UInt64) : SourceUrl :=
  let reliability := nextReliability u.reliability success
  { u with
    reliability
    checkCount := u.checkCount + 1
    lastChecked := now
    isActive := u.isActive && floor ≤ reliability }

def fields : List String :=
  ["id", "url", "measurement_type", "currency", "submitter", "validators", "last_checked",
    "is_active", "reliability_ppm", "validation_count", "block_height"]

instance : JsonForm SourceUrl where
  toJson u :=
    .record fields
      [toJson u.id, toJson u.url, toJson u.kind, toJson u.currency, toJson u.submitter,
        toJson u.validators, toJson u.lastChecked, toJson u.isActive, toJson u.reliability,
        toJson u.checkCount, toJson u.blockHeight]
  ofJson? j :=
    match j.fields? fields with
    | some [id, url, kind, currency, submitter, validators, lastChecked, isActive, reliability,
        checkCount, blockHeight] => do
      some
        { id := ← Json.required? id
          url := ← Json.required? url
          kind := ← Json.required? kind
          currency := ← Json.optional? currency
          submitter := ← Json.required? submitter
          validators := ← Json.required? validators
          lastChecked := ← Json.required? lastChecked
          isActive := ← Json.required? isActive
          reliability := ← Json.required? reliability
          checkCount := ← Json.required? checkCount
          blockHeight := ← Json.required? blockHeight }
    | _ => none

end SourceUrl

end WaterPeg
