import WaterPeg.Config

/-!
How many measurements of a currency are wanted a day, in words of 64 bits. The products on the way
to a target are cut to a word.
-/
namespace WaterPeg.TargetParams

/-- No history, or a first observation less than the early days ago. -/
def isEarly (p : TargetParams) (firstSeen : Option UInt64) (now : UInt64) : Bool :=
  match firstSeen with
  | none => true
  | some first => now.toNat - first.toNat < (p.earlyDays * .ofNat secondsPerDay).toNat

/-- The stable target up to the stable variation, the volatile one from the volatile variation on,
and a straight line between them. -/
def ofVariation (p : TargetParams) (variation : UInt64) : UInt64 :=
  if p.volatileVariation ≤ variation then p.volatileTarget
  else if variation ≤ p.stableVariation then p.stableTarget
  else
    let span := p.volatileVariation - p.stableVariation
    let place := variation - p.stableVariation
    if p.stableTarget ≤ p.volatileTarget then
      p.stableTarget + (p.volatileTarget - p.stableTarget) * place / span
    else p.stableTarget - (p.stableTarget - p.volatileTarget) * place / span

/-- The target before it is clamped. Without a variation to judge, the early target stands. -/
def unclamped (p : TargetParams) (firstSeen : Option UInt64) (now : UInt64)
    (variation : Option UInt64) : UInt64 :=
  match p.isEarly firstSeen now, variation with
  | false, some v => p.ofVariation v
  | _, _ => p.earlyTarget

def clamped (p : TargetParams) (target : UInt64) : UInt64 :=
  max p.minDaily (min target p.maxDaily)

/-- The target within the daily bounds; there is none if the bounds are crossed. -/
def daily? (p : TargetParams) (firstSeen : Option UInt64) (now : UInt64)
    (variation : Option UInt64) : Option UInt64 :=
  if p.minDaily ≤ p.maxDaily then some (p.clamped (p.unclamped firstSeen now variation)) else none

end WaterPeg.TargetParams
