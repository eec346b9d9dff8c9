import WaterPeg.Units
import WaterPeg.Word

/-! The parameters of the peg, their defaults, and which settings are consistent. -/
namespace WaterPeg

structure MeasurementParams where
  /-- Lifetime of an invite in seconds. -/
  inviteExpiry : UInt64 := 604800
  /-- Peers that must endorse an observation before it counts as validated. -/
  minValidators : UInt64 := 3
  /-- Width of the outlier filter, in thousandths of a standard deviation. -/
  averagingWidth : UInt64 := 2000
  /-- Width of the acceptance band, in thousandths of a standard deviation. -/
  acceptanceWidth : UInt64 := 3000
  /-- Samples without which no average is reported. -/
  minSignificantSamples : UInt64 := 5
  /-- Days of history that a submission is held against. -/
  acceptanceWindowDays : UInt64 := 7
  /-- Basis points of the mean that pass when all samples are alike. -/
  zeroVarianceTolerance : UInt64 := 1000
  /-- Seconds between an offline observation and its submission. -/
  offlineTolerance : UInt64 := 3600
  /-- Seconds that an online observation may be stamped ahead. -/
  maxFutureDrift : UInt64 := 300
  /-- Smallest container, in microliters. -/
  minVolume : UInt64 := 900000
  /-- Largest container, in microliters. -/
  maxVolume : UInt64 := 1100000
  /-- Largest price or rate, in micro units. -/
  maxValue : UInt64 := 1000000000000
  /-- Only observations endorsed by peers go into averages. -/
  requirePeerValidation : Bool := false
  /-- Turnout assumed before the first invite, in parts per million. -/
  defaultTurnout : UInt64 := 500000
  /-- Turnout below this counts as this when invites are sized. -/
  minTurnout : UInt64 := 100000
  /-- Invites sent for each one needed, in percent. -/
  inviteOverhead : UInt64 := 120
  /-- A URL less reliable than this is deactivated. -/
  minUrlReliability : UInt64 := 300000
  /-- Deviation that a day's rollup still calls stable, in parts per million. -/
  dailyTolerance : UInt64 := 100000
  /-- Native users that a currency needs before invites are sent for a target. -/
  readyUsers : UInt64 := 100
  /-- The same, below the bootstrap height. -/
  bootstrapUsers : UInt64 := 10
  bootstrapHeight : UInt64 := 10000
  /-- Supply in minor units that a currency needs before rates are measured. -/
  readySupply : UInt128 := 10000000
deriving DecidableEq

structure TargetParams where
  minDaily : UInt64 := 50
  maxDaily : UInt64 := 300
  earlyTarget : UInt64 := 200
  earlyDays : UInt64 := 30
  volatileTarget : UInt64 := 150
  stableTarget : UInt64 := 75
  /-- Variation from which on the volatile target applies, in basis points. -/
  volatileVariation : UInt64 := 1500
  /-- Variation up to which the stable target applies. -/
  stableVariation : UInt64 := 500
  windowDays : UInt64 := 7
deriving DecidableEq

structure StabilityParams where
  /-- Deviation above which a currency is unstable, in parts per million. -/
  threshold : UInt64 := 100000
  /-- Blocks for which a currency must be unstable before it issues. -/
  unstableBlocks : UInt64 := 144
  /-- Blocks without data after which a currency is inactive. -/
  inactiveBlocks : UInt64 := 4320
  /-- Share of the weighted volume that is issued, in parts per million. -/
  coinFactor : UInt64 := 100000
  minReward : UInt128 := 100
  maxReward : UInt128 := 10000
  minRecipients : UInt64 := 10
  maxRecipients : UInt64 := 50000
  /-- Minor units issued for each recipient. -/
  unitsPerRecipient : UInt128 := 100
  waterWindowDays : UInt64 := 30
  exchangeWindowDays : UInt64 := 7
deriving DecidableEq

structure Config where
  measurement : MeasurementParams := {}
  targets : TargetParams := {}
  stabilization : StabilityParams := {}
deriving DecidableEq

instance : Inhabited Config := ⟨{}⟩

namespace Config

inductive Fault
  | inviteExpiry
  | minValidators
  | gaussianWidths
  | minSignificantSamples
  | minTurnout
  | volumes
  | users
  | inviteOverhead
  | dailyTargets
  | variations
  | rewards
  | recipients
  | unitsPerRecipient
deriving DecidableEq, Repr

def Fault.message : Fault → String
  | .inviteExpiry => "invite_expiry_secs must be > 0"
  | .minValidators => "min_validators must be > 0"
  | .gaussianWidths => "gaussian thresholds must be > 0"
  | .minSignificantSamples => "min_significant_samples must be >= 2"
  | .minTurnout => "min_conversion_rate_ppm must be in (0, 1_000_000]"
  | .volumes => "0 < min_volume_micro_liters <= max_volume_micro_liters required"
  | .users => "bootstrap_min_users must not exceed readiness_min_users"
  | .inviteOverhead => "invite_overhead_pct must be >= 100"
  | .dailyTargets => "targets: 0 < min_daily <= max_daily required"
  | .variations => "targets: stable_cv_bps must be below volatile_cv_bps"
  | .rewards => "stabilization: 0 < min_reward <= max_reward required"
  | .recipients => "stabilization: 0 < min_recipients <= max_recipients required"
  | .unitsPerRecipient => "stabilization: minor_units_per_recipient must be > 0"

/-- The rules, each with the fault of a configuration that breaks it, in the order of checking. -/
def rules (c : Config) : List (Bool × Fault) :=
  let m := c.measurement
  let t := c.targets
  let s := c.stabilization
  [ (0 < m.inviteExpiry, .inviteExpiry),
    (0 < m.minValidators, .minValidators),
    (0 < m.averagingWidth && 0 < m.acceptanceWidth, .gaussianWidths),
    (2 ≤ m.minSignificantSamples, .minSignificantSamples),
    (0 < m.minTurnout && m.minTurnout ≤ 1000000, .minTurnout),
    (0 < m.minVolume && m.minVolume ≤ m.maxVolume, .volumes),
    (m.bootstrapUsers ≤ m.readyUsers, .users),
    (100 ≤ m.inviteOverhead, .inviteOverhead),
    (0 < t.minDaily && t.minDaily ≤ t.maxDaily, .dailyTargets),
    (t.stableVariation < t.volatileVariation, .variations),
    (0 < s.minReward.toNat && s.minReward.toNat ≤ s.maxReward.toNat, .rewards),
    (0 < s.minRecipients && s.minRecipients ≤ s.maxRecipients, .recipients),
    (0 < s.unitsPerRecipient.toNat, .unitsPerRecipient) ]

def fault? (c : Config) : Option Fault := (c.rules.find? fun r => !r.1).map (·.2)

end Config

inductive ConfigError
  | unreadable
  | syntaxError
  | unwritable
  | environment (setting value : String)
  | invalid (fault : Config.Fault)
deriving DecidableEq, Repr

def ConfigError.name : ConfigError → String
  | .unreadable => "Io"
  | .syntaxError => "Parse"
  | .unwritable => "Serialize"
  | .environment _ _ => "Env"
  | .invalid _ => "Invalid"

def ConfigError.message : ConfigError → String
  | .unreadable => "failed to read config"
  | .syntaxError => "failed to parse config"
  | .unwritable => "failed to serialize config"
  | .environment setting value => s!"invalid value for {setting}: {value}"
  | .invalid fault => "invalid config: " ++ fault.message

def Config.checked (c : Config) : Except ConfigError Config :=
  match c.fault? with
  | some f => .error (.invalid f)
  | none => .ok c

end WaterPeg
