import WaterPeg.Digest.Sha3
import WaterPeg.Moments
import WaterPeg.Volume

/-! Accepted observations of a quantity, either the price of a liter of water or an exchange rate. -/
namespace WaterPeg

/-- How a value stood beside its history when it was accepted. -/
structure BandCheck where
  passed : Bool
  windowMean : Option UInt64
  windowStdDev : Option UInt64
  windowSamples : UInt64
  checkedAt : UInt64
deriving DecidableEq

namespace BandCheck

def ofMoments (m : Option Moments) (now : UInt64) : BandCheck where
  passed := true
  windowMean := m.map Moments.mean
  windowStdDev := m.map Moments.stdDev
  windowSamples := UInt64.ofNat ((m.map Moments.count).getD 0)
  checkedAt := now

def fields : List String :=
  ["passed", "window_mean_micro", "window_std_dev_micro", "window_samples", "validated_at"]

instance : JsonForm BandCheck where
  toJson c :=
    .record fields
      [toJson c.passed, toJson c.windowMean, toJson c.windowStdDev, toJson c.windowSamples,
        toJson c.checkedAt]
  ofJson? j :=
    match j.fields? fields with
    | some [passed, mean, stdDev, samples, checkedAt] => do
      some
        { passed := ← Json.required? passed
          windowMean := ← Json.optional? mean
          windowStdDev := ← Json.optional? stdDev
          windowSamples := ← Json.required? samples
          checkedAt := ← Json.required? checkedAt }
    | _ => none

end BandCheck

structure Reading (α : Type) where
  id : Digest
  submitter : String
  measured : α
  evidence : String
  source : Source
  timestamp : UInt64
  blockHeight : UInt64
  /-- Peers who endorsed it, the latest last. -/
  validators : List String
  isValidated : Bool
  /-- A tenth for each peer, one at most, in parts per million. -/
  confidence : UInt64
  check : BandCheck
  inviteId : Digest
deriving DecidableEq

/-- What the id of an observation is the digest of: a domain name, the submitter and the currencies
with their lengths, the value, the time and the invite. -/
def Reading.preimage (domain : Bytes) (submitter : String) (currencies : List String)
    (value timestamp : UInt64) (inviteId : Digest) : Bytes :=
  domain ++ Bytes.framed (Bytes.ofString submitter)
    ++ (currencies.flatMap fun c => Bytes.framed (Bytes.ofString c))
    ++ Bytes.ofWord value ++ Bytes.ofWord timestamp ++ inviteId.bytes

/-- The price of a liter of water, and the container it was read off. -/
structure WaterPrice where
  currency : String
  price : UInt64
  containerPrice : UInt64
  container : Container
deriving DecidableEq

structure ExchangeRate where
  base : String
  quote : String
  rate : UInt64
deriving DecidableEq

def WaterPrice.fields : List String :=
  ["id", "submitter", "currency", "price_micro", "container_price_micro", "volume", "proof",
    "source", "timestamp", "block_height", "validators", "is_validated", "confidence_ppm",
    "automated", "invite_id"]

instance : JsonForm (Reading WaterPrice) where
  toJson r :=
    .record WaterPrice.fields
      [toJson r.id, toJson r.submitter, toJson r.measured.currency, toJson r.measured.price,
        toJson r.measured.containerPrice, toJson r.measured.container, toJson r.evidence,
        toJson r.source, toJson r.timestamp, toJson r.blockHeight, toJson r.validators,
        toJson r.isValidated, toJson r.confidence, toJson r.check, toJson r.inviteId]
  ofJson? j :=
    match j.fields? WaterPrice.fields with
    | some [id, submitter, currency, price, containerPrice, container, evidence, source, timestamp,
        blockHeight, validators, isValidated, confidence, check, inviteId] => do
      some
        { id := ← Json.required? id
          submitter := ← Json.required? submitter
          measured :=
            { currency := ← Json.required? currency
              price := ← Json.required? price
              containerPrice := ← Json.required? containerPrice
              container := ← Json.required? container }
          evidence := ← Json.required? evidence
          source := ← Json.required? source
          timestamp := ← Json.required? timestamp
          blockHeight := ← Json.required? blockHeight
          validators := ← Json.required? validators
          isValidated := ← Json.required? isValidated
          confidence := ← Json.required? confidence
          check := ← Json.required? check
          inviteId := ← Json.required? inviteId }
    | _ => none

def ExchangeRate.fields : List String :=
  ["id", "submitter", "from_currency", "to_currency", "rate_micro", "proof", "source", "timestamp",
    "block_height", "validators", "is_validated", "confidence_ppm", "automated", "invite_id"]

instance : JsonForm (Reading ExchangeRate) where
  toJson r :=
    .record ExchangeRate.fields
      [toJson r.id, toJson r.submitter, toJson r.measured.base, toJson r.measured.quote,
        toJson r.measured.rate, toJson r.evidence, toJson r.source, toJson r.timestamp,
        toJson r.blockHeight, toJson r.validators, toJson r.isValidated, toJson r.confidence,
        toJson r.check, toJson r.inviteId]
  ofJson? j :=
    match j.fields? ExchangeRate.fields with
    | some [id, submitter, base, quote, rate, evidence, source, timestamp, blockHeight, validators,
        isValidated, confidence, check, inviteId] => do
      some
        { id := ← Json.required? id
          submitter := ← Json.required? submitter
          measured :=
            { base := ← Json.required? base
              quote := ← Json.required? quote
              rate := ← Json.required? rate }
          evidence := ← Json.required? evidence
          source := ← Json.required? source
          timestamp := ← Json.required? timestamp
          blockHeight := ← Json.required? blockHeight
          validators := ← Json.required? validators
          isValidated := ← Json.required? isValidated
          confidence := ← Json.required? confidence
          check := ← Json.required? check
          inviteId := ← Json.required? inviteId }
    | _ => none

end WaterPeg
