import WaterPeg.Evidence
import WaterPeg.Store

/-! Why the oracle turns a request down. -/
namespace WaterPeg

/-- Why a submission or an endorsement was refused. Nothing is used up by a refusal. -/
inductive Refusal
  | unknownInvite
  | inviteNotOwned
  | inviteKind (kind : MeasurementKind)
  | inviteCurrency (currency : String)
  | inviteUsed
  | inviteExpired
  | evidence (fault : Evidence.Fault)
  | stale (age : Nat)
  | future (ahead : Nat)
  | volume (microLiters : UInt64)
  | notPositive
  | tooLarge (value : UInt64)
  | pair (base quote : String)
  | outOfBand (value mean : UInt64)
  | duplicate
  | unknownReading
  | ownRecord
  | alreadyValidated
  | duplicateUrl
  | unknownUrl
deriving DecidableEq, Repr

def Refusal.message : Refusal → String
  | .unknownInvite => "invite not found"
  | .inviteNotOwned => "invite was issued to a different user"
  | .inviteKind kind => s!"invite is for {kind.label} measurements"
  | .inviteCurrency currency => s!"invite is for currency {currency}"
  | .inviteUsed => "invite already used"
  | .inviteExpired => "invite expired"
  | .evidence fault => "invalid proof: " ++ fault.message
  | .stale age => s!"observation outside time tolerance ({age}s old)"
  | .future ahead => s!"observation stamped {ahead}s in the future"
  | .volume microLiters => s!"container volume {microLiters} uL outside the accepted range"
  | .notPositive => "value must be positive"
  | .tooLarge value => s!"value {value} exceeds the observation bound"
  | .pair base quote => s!"invalid currency pair {base}/{quote}"
  | .outOfBand value mean => s!"value {value} outside gaussian acceptance range around {mean}"
  | .duplicate => "duplicate observation"
  | .unknownReading => "observation not found"
  | .ownRecord => "submitter cannot validate own record"
  | .alreadyValidated => "validator already recorded"
  | .duplicateUrl => "url already registered"
  | .unknownUrl => "url not found"

def Refusal.name : Refusal → String
  | .unknownInvite => "UnknownInvite"
  | .inviteNotOwned => "InviteNotOwned"
  | .inviteKind _ => "InviteTypeMismatch"
  | .inviteCurrency _ => "InviteCurrencyMismatch"
  | .inviteUsed => "InviteUsed"
  | .inviteExpired => "InviteExpired"
  | .evidence _ => "InvalidProof"
  | .stale _ => "StaleObservation"
  | .future _ => "FutureTimestamp"
  | .volume _ => "VolumeOutOfRange"
  | .notPositive => "NonPositiveValue"
  | .tooLarge _ => "ValueTooLarge"
  | .pair _ _ => "InvalidCurrencyPair"
  | .outOfBand _ _ => "OutOfRange"
  | .duplicate => "Duplicate"
  | .unknownReading => "UnknownObservation"
  | .ownRecord => "SelfValidation"
  | .alreadyValidated => "AlreadyValidated"
  | .duplicateUrl => "DuplicateUrl"
  | .unknownUrl => "UnknownUrl"

inductive OracleError
  | refused (why : Refusal)
  | store (why : StoreError)
  | beforeEpoch (date : Date)
deriving DecidableEq

def OracleError.name : OracleError → String
  | .refused why => why.name
  | .store why => why.name
  | .beforeEpoch _ => "InvalidDate"

def OracleError.message : OracleError → String
  | .refused why => "rejected: " ++ why.message
  | .store why => why.message
  | .beforeEpoch date => s!"date {date.text} is outside the unix epoch range"

end WaterPeg
