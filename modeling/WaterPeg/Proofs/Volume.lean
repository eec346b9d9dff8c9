import WaterPeg.Volume

/-! Conversions of volumes and prices are to the nearest. -/
namespace WaterPeg

/-- A quotient that is rounded half up misses the dividend by half the divisor at most. -/
theorem absDiff_roundDiv_le (n : Nat) {d : Nat} (hd : 0 < d) :
    2 * absDiff ((n + d / 2) / d * d) n ≤ d := by
  have hdiv := Nat.div_add_mod' (n + d / 2) d
  have hmod := Nat.mod_lt (n + d / 2) hd
  unfold absDiff
  omega

namespace Container

/-- To round down to nanoliters first does not change which microliter is the nearest. -/
theorem microLiters_eq (c : Container) : c.microLiters =
    UInt64.ofNatClamp ((c.amountMilli.toNat * c.unit.nanoLiters + 1000000 / 2) / 1000000) := by
  have hround (n : Nat) : (n / 1000 + 500) / 1000 = (n + 1000000 / 2) / 1000000 := by omega
  simp only [microLiters, hround]

/-- A volume below the clamp misses what the label says by half a microliter at most. -/
theorem absDiff_microLiters_le {c : Container} (h : c.microLiters.toNat < UInt64.size - 1) :
    2 * absDiff (c.microLiters.toNat * 1000000) (c.amountMilli.toNat * c.unit.nanoLiters) ≤
      1000000 := by
  have hpos : 0 < 1000000 := by decide
  have hnearest := absDiff_roundDiv_le (c.amountMilli.toNat * c.unit.nanoLiters) hpos
  rw [microLiters_eq] at h ⊢
  by_cases hword :
      (c.amountMilli.toNat * c.unit.nanoLiters + 1000000 / 2) / 1000000 < UInt64.size
  · rwa [UInt64.toNat_ofNatClamp_of_lt hword]
  · rw [UInt64.toNat_ofNatClamp_of_le (Nat.le_of_not_lt hword)] at h
    exact absurd h (Nat.lt_irrefl _)

end Container

/-- The price of a container that is worked back from that of a liter misses the real one by half a
micro unit at most. -/
theorem absDiff_pricePerLiter?_le {price volume perLiter : UInt64}
    (h : pricePerLiter? price volume = some perLiter) :
    2 * absDiff (perLiter.toNat * volume.toNat) (price.toNat * 1000000) ≤ volume.toNat := by
  unfold pricePerLiter? at h
  split at h
  · exact nomatch h
  next hvolume =>
  have hpos : 0 < volume.toNat := by
    refine Nat.pos_of_ne_zero fun hzero => hvolume ?_
    exact UInt64.toNat_inj.1 hzero
  unfold word? at h
  split at h
  · next hword =>
    rw [← Option.some.inj h, UInt64.toNat_ofNat_of_lt' hword]
    exact absDiff_roundDiv_le _ hpos
  · exact nomatch h

end WaterPeg
