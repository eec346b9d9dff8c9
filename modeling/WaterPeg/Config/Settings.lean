import WaterPeg.Config

/-! The names of all parameters, in the order in which they are written. -/
namespace WaterPeg

/-- A named parameter of a structure of parameters: how it is read off and how it is set. -/
inductive Setting (σ : Type)
  | word (name : String) (get : σ → UInt64) (set : σ → UInt64 → σ)
  | amount (name : String) (get : σ → UInt128) (set : σ → UInt128 → σ)
  | flag (name : String) (get : σ → Bool) (set : σ → Bool → σ)

namespace Setting

def name {σ : Type} : Setting σ → String
  | word name _ _ | amount name _ _ | flag name _ _ => name

end Setting

/-- Structures of parameters that are written under a name. -/
class Settings (σ : Type) where
  all : List (Setting σ)

instance : Settings MeasurementParams where
  all :=
    [ .word "invite_expiry_secs" (·.inviteExpiry) fun p v => { p with inviteExpiry := v },
      .word "min_validators" (·.minValidators) fun p v => { p with minValidators := v },
      .word "gaussian_std_threshold_milli" (·.averagingWidth) fun p v =>
        { p with averagingWidth := v },
      .word "gaussian_acceptance_threshold_milli" (·.acceptanceWidth) fun p v =>
        { p with acceptanceWidth := v },
      .word "min_significant_samples" (·.minSignificantSamples) fun p v =>
        { p with minSignificantSamples := v },
      .word "acceptance_window_days" (·.acceptanceWindowDays) fun p v =>
        { p with acceptanceWindowDays := v },
      .word "zero_variance_tolerance_bps" (·.zeroVarianceTolerance) fun p v =>
        { p with zeroVarianceTolerance := v },
      .word "offline_tolerance_secs" (·.offlineTolerance) fun p v =>
        { p with offlineTolerance := v },
      .word "max_future_drift_secs" (·.maxFutureDrift) fun p v => { p with maxFutureDrift := v },
      .word "min_volume_micro_liters" (·.minVolume) fun p v => { p with minVolume := v },
      .word "max_volume_micro_liters" (·.maxVolume) fun p v => { p with maxVolume := v },
      .word "max_observation_micro" (·.maxValue) fun p v => { p with maxValue := v },
      .flag "require_peer_validation" (·.requirePeerValidation) fun p v =>
        { p with requirePeerValidation := v },
      .word "default_conversion_rate_ppm" (·.defaultTurnout) fun p v =>
        { p with defaultTurnout := v },
      .word "min_conversion_rate_ppm" (·.minTurnout) fun p v => { p with minTurnout := v },
      .word "invite_overhead_pct" (·.inviteOverhead) fun p v => { p with inviteOverhead := v },
      .word "url_min_reliability_ppm" (·.minUrlReliability) fun p v =>
        { p with minUrlReliability := v },
      .word "daily_stability_tolerance_ppm" (·.dailyTolerance) fun p v =>
        { p with dailyTolerance := v },
      .word "readiness_min_users" (·.readyUsers) fun p v => { p with readyUsers := v },
      .word "bootstrap_min_users" (·.bootstrapUsers) fun p v => { p with bootstrapUsers := v },
      .word "bootstrap_height" (·.bootstrapHeight) fun p v => { p with bootstrapHeight := v },
      .amount "readiness_min_supply" (·.readySupply) fun p v => { p with readySupply := v } ]

instance : Settings TargetParams where
  all :=
    [ .word "min_daily" (·.minDaily) fun p v => { p with minDaily := v },
      .word "max_daily" (·.maxDaily) fun p v => { p with maxDaily := v },
      .word "early_stage_target" (·.earlyTarget) fun p v => { p with earlyTarget := v },
      .word "early_stage_days" (·.earlyDays) fun p v => { p with earlyDays := v },
      .word "volatile_target" (·.volatileTarget) fun p v => { p with volatileTarget := v },
      .word "stable_target" (·.stableTarget) fun p v => { p with stableTarget := v },
      .word "volatile_cv_bps" (·.volatileVariation) fun p v => { p with volatileVariation := v },
      .word "stable_cv_bps" (·.stableVariation) fun p v => { p with stableVariation := v },
      .word "cv_window_days" (·.windowDays) fun p v => { p with windowDays := v } ]

instance : Settings StabilityParams where
  all :=
    [ .word "stability_threshold_ppm" (·.threshold) fun p v => { p with threshold := v },
      .word "unstable_time_range" (·.unstableBlocks) fun p v => { p with unstableBlocks := v },
      .word "inactive_time_range" (·.inactiveBlocks) fun p v => { p with inactiveBlocks := v },
      .word "coin_factor_ppm" (·.coinFactor) fun p v => { p with coinFactor := v },
      .amount "min_reward" (·.minReward) fun p v => { p with minReward := v },
      .amount "max_reward" (·.maxReward) fun p v => { p with maxReward := v },
      .word "min_recipients" (·.minRecipients) fun p v => { p with minRecipients := v },
      .word "max_recipients" (·.maxRecipients) fun p v => { p with maxRecipients := v },
      .amount "minor_units_per_recipient" (·.unitsPerRecipient) fun p v =>
        { p with unitsPerRecipient := v },
      .word "water_window_days" (·.waterWindowDays) fun p v => { p with waterWindowDays := v },
      .word "exchange_window_days" (·.exchangeWindowDays) fun p v =>
        { p with exchangeWindowDays := v } ]

end WaterPeg
