import WaterPeg.Oracle

/-! Pruning what is old, and counting what there is. -/
namespace WaterPeg.Oracle

/-- Drop the observations from before a time, and the invites that are settled and expired before
it; gives the number of records dropped. -/
def prune (o : Oracle) (cutoff : UInt64) : Outcome Nat :=
  let t := o.tables
  let edits :=
    ((t.water.values.filter fun r => r.timestamp < cutoff).map fun r => Edit.dropWater r.id)
      ++ ((t.rates.values.filter fun r => r.timestamp < cutoff).map fun r => Edit.dropRate r.id)
      ++ ((t.invites.values.filter fun i => (i.isUsed || i.isExpired) && i.expiresAt < cutoff).map
        fun i => Edit.dropInvite i.id)
  o.commit edits edits.length

structure Statistics where
  waterReadings : Nat
  rateReadings : Nat
  validatedReadings : Nat
  openInvites : Nat
  usedInvites : Nat
  expiredInvites : Nat
  activeUrls : Nat
  rollups : Nat
  currencies : Nat
deriving DecidableEq

def Statistics.json (s : Statistics) : Json :=
  .record
    ["water_observations", "exchange_observations", "validated_observations", "open_invites",
      "used_invites", "expired_invites", "active_urls", "daily_averages", "currencies"]
    ([s.waterReadings, s.rateReadings, s.validatedReadings, s.openInvites, s.usedInvites,
      s.expiredInvites, s.activeUrls, s.rollups, s.currencies].map .count)

def statistics (o : Oracle) (now : UInt64) : Statistics :=
  let t := o.tables
  let invites := t.invites.values
  { waterReadings := t.water.size
    rateReadings := t.rates.size
    validatedReadings :=
      t.water.values.countP Reading.isValidated + t.rates.values.countP Reading.isValidated
    openInvites := invites.countP fun i => i.isValidAt now
    usedInvites := invites.countP Invite.isUsed
    expiredInvites := invites.countP fun i => !i.isUsed && (i.isExpired || i.expiresAt ≤ now)
    activeUrls := t.urls.values.countP SourceUrl.isActive
    rollups := t.rollups.size
    currencies := t.currencies.length }

end WaterPeg.Oracle
