import WaterPeg.Bytes
import WaterPeg.Config.Numeral
import WaterPeg.Config

/-! The configuration as environment variables: the defaults, and what the variables override. -/
namespace WaterPeg.Config

def flag? (s : String) : Option Bool :=
  if s = "true" then some true else if s = "false" then some false else none

/-- The variables in the order in which they are looked at, and what each sets. -/
def overrides : List (String × (Config → String → Option Config)) :=
  [ ("OPEG_INVITE_EXPIRY_SECS", fun c s => (Numeral.word? s).map fun v =>
      { c with measurement.inviteExpiry := v }),
    ("OPEG_MIN_VALIDATORS", fun c s => (Numeral.word? s).map fun v =>
      { c with measurement.minValidators := v }),
    ("OPEG_REQUIRE_PEER_VALIDATION", fun c s => (flag? s).map fun v =>
      { c with measurement.requirePeerValidation := v }),
    ("OPEG_OFFLINE_TOLERANCE_SECS", fun c s => (Numeral.word? s).map fun v =>
      { c with measurement.offlineTolerance := v }),
    ("OPEG_STABILITY_THRESHOLD_PPM", fun c s => (Numeral.word? s).map fun v =>
      { c with stabilization.threshold := v }),
    ("OPEG_UNSTABLE_TIME_RANGE", fun c s => (Numeral.word? s).map fun v =>
      { c with stabilization.unstableBlocks := v }),
    ("OPEG_INACTIVE_TIME_RANGE", fun c s => (Numeral.word? s).map fun v =>
      { c with stabilization.inactiveBlocks := v }) ]

/-- The configuration of an environment. A variable that is not Unicode text counts as unset. -/
def ofEnvironment (lookup : String → Option Bytes) : Except ConfigError Config := do
  let config ← overrides.foldlM
    (fun c (name, set) =>
      match lookup name >>= Bytes.text? with
      | none => .ok c
      | some value =>
        match set c value with
        | some c => .ok c
        | none => .error (.environment name value))
    ({} : Config)
  config.checked

end WaterPeg.Config
