import WaterPeg.Config

/-! How many coins a deviation calls for, and how they are cut into rewards. -/
namespace WaterPeg.Issuance

/-- The part of a currency's volume that its deviation weighs, in parts per million: the distance of
the ratio from one. A ratio of zero weighs nothing. -/
def weight (ratio : UInt64) : Nat :=
  if ratio = 0 then 0 else absDiff ppm ratio.toNat

/-- The coins for a volume: its weighted part, of which a share is issued. There is no answer if a
product does not fit 128 bits. -/
def coins? (volume : UInt128) (ratio factor : UInt64) : Option UInt128 := do
  let weighted ← UInt128.ofNat? (volume.toNat * weight ratio)
  let scaled ← UInt128.ofNat? (weighted.toNat * factor.toNat)
  some (UInt128.ofNat (scaled.toNat / (ppm * ppm)))

/-- A number brought between two bounds. Of crossed bounds the lower one counts. -/
def clamp (lo hi n : Nat) : Nat := max lo (min n (max hi lo))

/-- Recipients for an issue: one for every so many coins, between the bounds. -/
def recipientCount (p : StabilityParams) (coins : UInt128) : Nat :=
  clamp p.minRecipients.toNat p.maxRecipients.toNat
    (min (coins.toNat / max p.unitsPerRecipient.toNat 1) (UInt64.size - 1))

/-- The reward of each recipient: an equal part of the coins, between the bounds. -/
def reward (p : StabilityParams) (coins : UInt128) (recipients : Nat) : UInt128 :=
  if recipients = 0 then 0
  else
    UInt128.ofNat (clamp p.minReward.toNat p.maxReward.toNat (coins.toNat / recipients))

end WaterPeg.Issuance
