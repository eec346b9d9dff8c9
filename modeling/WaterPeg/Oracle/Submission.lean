import WaterPeg.Currency
import WaterPeg.Oracle

/-!
Submissions: what is checked before an observation is accepted, in which order, and what accepting
it changes. Water prices and exchange rates go through the same checks; `Quantity` says what differs.
-/
namespace WaterPeg

structure WaterOffer where
  currency : String
  price : UInt64
  container : Container
deriving DecidableEq

structure Submission (ω : Type) where
  submitter : String
  offer : ω
  evidence : String
  source : Source
  timestamp : UInt64
  blockHeight : UInt64
  inviteId : Digest

def MeasurementParams.checkValue (p : MeasurementParams) (value : UInt64) : Except Refusal Unit :=
  if value = 0 then .error .notPositive
  else if p.maxValue < value then .error (.tooLarge value)
  else .ok ()

/-- An observation made offline is close to the present. One made online may lie a little ahead, and
back as far as the acceptance window. -/
def MeasurementParams.checkTime (p : MeasurementParams) (source : Source) (timestamp now : UInt64) :
    Except Refusal Unit :=
  if source.isOffline then
    let age := absDiff now.toNat timestamp.toNat
    if p.offlineTolerance.toNat < age then .error (.stale age) else .ok ()
  else if now < timestamp then
    let ahead := timestamp.toNat - now.toNat
    if p.maxFutureDrift.toNat < ahead then .error (.future ahead) else .ok ()
  else if timestamp < Tables.windowStart now p.acceptanceWindowDays then
    .error (.stale (now.toNat - timestamp.toNat))
  else .ok ()

/-- The price of a liter, if the container is of an accepted size. -/
def MeasurementParams.perLiter (p : MeasurementParams) (o : WaterOffer) : Except Refusal WaterPrice := do
  p.checkValue o.price
  let volume := o.container.microLiters
  if volume < p.minVolume ∨ p.maxVolume < volume then .error (.volume volume)
  match pricePerLiter? o.price volume with
  | none => .error (.volume volume)
  | some price => do
    p.checkValue price
    .ok ⟨o.currency, price, o.price, o.container⟩

/-- What sets the two kinds of observation apart: offers `ω` of a measured `α`. -/
class Quantity (ω : Type) (α : outParam Type) where
  /-- The kinds of invite that such an offer answers. -/
  answers : MeasurementKind → Bool
  /-- The currency that the invite must be for. -/
  currency : ω → String
  /-- A check that comes before that of the evidence. -/
  admissible : ω → Except Refusal Unit
  /-- The measured quantity of an offer. -/
  measure : MeasurementParams → ω → Except Refusal α
  /-- The name before the fields that an id is the digest of, and the currencies among them. -/
  domain : String
  codes : α → List String
  value : α → UInt64
  /-- The accepted observations, and the values of one series within a window. -/
  readings : Tables → Table Digest (Reading α)
  series : Tables → α → UInt64 → UInt64 → List UInt64
  put : Reading α → Edit

instance : Quantity WaterOffer WaterPrice where
  answers := MeasurementKind.isWater
  currency := WaterOffer.currency
  admissible _ := .ok ()
  measure := MeasurementParams.perLiter
  domain := "OPEG_WATER_OBS_V1"
  codes p := [p.currency]
  value := WaterPrice.price
  readings := Tables.water
  series t p start stop := t.waterPrices p.currency start stop false
  put := .putWater

instance : Quantity ExchangeRate ExchangeRate where
  answers := MeasurementKind.isExchange
  currency := ExchangeRate.base
  admissible r :=
    if Currency.fiat? r.base = some r.quote then .ok () else .error (.pair r.base r.quote)
  measure p r := (p.checkValue r.rate).map fun _ => r
  domain := "OPEG_EXCHANGE_OBS_V1"
  codes r := [r.base, r.quote]
  value := ExchangeRate.rate
  readings := Tables.rates
  series t r start stop := t.exchangeRates r.base r.quote start stop false
  put := .putRate

structure Acceptance (α : Type) where
  reading : Reading α
  /-- The invite, used. -/
  invite : Invite
  turnout : Turnout
  /-- The time, if this is the first observation of its currency. -/
  firstSeen : Option (String × UInt64)

def Acceptance.edits {α : Type} (put : Reading α → Edit) (a : Acceptance α) : List Edit :=
  [put a.reading, .putInvite a.invite, .putTurnout a.turnout]
    ++ match a.firstSeen with
      | some (currency, time) => [.putFirstSeen currency time]
      | none => []

namespace Oracle

/-- The invite that a submission answers, if it may still be answered by it. -/
def usableInvite (o : Oracle) (id : Digest) (submitter : String) (answers : MeasurementKind → Bool)
    (currency : String) (now : UInt64) : Except Refusal Invite :=
  match o.tables.invites[id]? with
  | none => .error .unknownInvite
  | some i =>
    if i.user ≠ submitter then .error .inviteNotOwned
    else if !answers i.kind then .error (.inviteKind i.kind)
    else
      match i.currency.filter (· ≠ currency) with
      | some bound => .error (.inviteCurrency bound)
      | none =>
        if i.isUsed then .error .inviteUsed
        else if i.isExpired || i.expiresAt ≤ now then .error .inviteExpired
        else .ok i

def band (p : MeasurementParams) : Band :=
  ⟨p.acceptanceWidth, p.minSignificantSamples, p.zeroVarianceTolerance⟩

def judge {ω α : Type} [Quantity ω α] (o : Oracle) (s : Submission ω) (now : UInt64) :
    Except Refusal (Acceptance α) := do
  let currency := Quantity.currency s.offer
  let invite ← o.usableInvite s.inviteId s.submitter (Quantity.answers ω) currency now
  Quantity.admissible s.offer
  (Evidence.check s.source s.evidence).mapError .evidence
  o.params.checkTime s.source s.timestamp now
  let measured ← Quantity.measure o.params s.offer
  let value := Quantity.value ω measured
  let id := sha3 (Reading.preimage (Bytes.ofString (Quantity.domain ω)) s.submitter
    (Quantity.codes ω measured) value s.timestamp s.inviteId)
  if (Quantity.readings ω o.tables).contains id then .error .duplicate
  let history := Quantity.series ω o.tables measured
    (Tables.windowStart now o.params.acceptanceWindowDays) now
  let moments ← ((band o.params).judge history value).mapError fun m => .outOfBand value m.mean
  .ok
    { reading :=
        { id
          submitter := s.submitter
          measured
          evidence := s.evidence
          source := s.source
          timestamp := s.timestamp
          blockHeight := s.blockHeight
          validators := []
          isValidated := false
          confidence := 0
          check := .ofMoments moments now
          inviteId := s.inviteId }
      invite := { invite with isUsed := true }
      turnout := (o.turnout ⟨invite.currency, invite.kind⟩).recordCompleted now
      firstSeen := if o.tables.firstSeen.contains currency then none else some (currency, now) }

/-- Submit an observation. A refused one leaves its invite open. -/
def submit {ω α : Type} [Quantity ω α] (o : Oracle) (s : Submission ω) (now : UInt64) :
    Outcome Digest :=
  match o.judge s now with
  | .error why => (.error (.refused why), o)
  | .ok a => o.commit (a.edits (Quantity.put ω)) a.reading.id

end Oracle

/-! ## Endorsement by peers -/

/-- The observation with one more peer behind it. From `minValidators` peers on it is validated. -/
def Reading.endorse {α : Type} (r : Reading α) (validator : String) (minValidators : UInt64) :
    Except Refusal (Reading α) :=
  if validator = r.submitter then .error .ownRecord
  else if r.validators.contains validator then .error .alreadyValidated
  else
    let validators := r.validators ++ [validator]
    .ok
      { r with
        validators
        isValidated := r.isValidated || minValidators.toNat ≤ validators.length
        confidence := UInt64.ofNat (min (validators.length * ppm / 10) ppm) }

def Oracle.endorse (o : Oracle) (id : Digest) (validator : String) : Outcome Unit :=
  match o.tables.water[id]? with
  | some r =>
    match r.endorse validator o.params.minValidators with
    | .error why => (.error (.refused why), o)
    | .ok r => o.commit [.putWater r] ()
  | none =>
    match o.tables.rates[id]? with
    | some r =>
      match r.endorse validator o.params.minValidators with
      | .error why => (.error (.refused why), o)
      | .ok r => o.commit [.putRate r] ()
    | none => (.error (.refused .unknownReading), o)

end WaterPeg
