import Mathlib.Data.List.Basic
import WaterPeg.Target

/-!
The daily target of a checked configuration. It is always within the daily bounds. Past the early
days it moves, as the variation grows, from the stable target to the volatile one and never back, as
long as no product on the way leaves a word.
-/
namespace WaterPeg

structure TargetParams.Consistent (p : TargetParams) : Prop where
  minDaily_le : p.minDaily ≤ p.maxDaily
  stable_lt : p.stableVariation < p.volatileVariation

theorem Config.targets_consistent {c : Config} (h : c.fault? = none) : c.targets.Consistent := by
  simp only [fault?, rules, Option.map_eq_none_iff, List.find?_eq_none, List.mem_cons,
    List.not_mem_nil, or_false, forall_eq_or_imp, forall_eq, Bool.not_eq_true', Bool.not_eq_false,
    Bool.and_eq_true, decide_eq_true_eq] at h
  obtain ⟨-, -, -, -, -, -, -, -, ⟨-, hdaily⟩, hvariation, -⟩ := h
  exact ⟨hdaily, hvariation⟩

namespace TargetParams

variable {p : TargetParams}

/-! ## The way from the stable to the volatile target -/

def span (p : TargetParams) : Nat := p.volatileVariation.toNat - p.stableVariation.toNat

/-- How far a variation is on that way, which it does not leave at either end. -/
def place (p : TargetParams) (variation : UInt64) : Nat :=
  min (variation.toNat - p.stableVariation.toNat) p.span

def covered (p : TargetParams) (height : Nat) (variation : UInt64) : Nat :=
  height * p.place variation / p.span

/-- The products on the way fit a word. -/
def ProductsFit (p : TargetParams) : Prop :=
  ∀ v, p.stableVariation < v → v < p.volatileVariation →
    absDiff p.volatileTarget.toNat p.stableTarget.toNat * (v.toNat - p.stableVariation.toNat) <
      UInt64.size

theorem place_mono {v w : UInt64} (h : v ≤ w) : p.place v ≤ p.place w := by
  have hle := UInt64.le_iff_toNat_le.1 h
  unfold place
  omega

theorem covered_mono (height : Nat) {v w : UInt64} (h : v ≤ w) :
    p.covered height v ≤ p.covered height w :=
  Nat.div_le_div_right (Nat.mul_le_mul_left height (place_mono h))

theorem covered_le (height : Nat) (v : UInt64) : p.covered height v ≤ height := by
  refine Nat.div_le_of_le_mul ?_
  rw [Nat.mul_comm p.span]
  exact Nat.mul_le_mul_left height (Nat.min_le_right _ _)

theorem covered_of_le (height : Nat) {v : UInt64} (h : v ≤ p.stableVariation) :
    p.covered height v = 0 := by
  have hplace : p.place v = 0 := by
    rw [place, Nat.sub_eq_zero_of_le (UInt64.le_iff_toNat_le.1 h), Nat.zero_min]
  rw [covered, hplace, Nat.mul_zero, Nat.zero_div]

/-- The share of a height in words, if the product fits one. -/
theorem toNat_covered {lower upper v : UInt64} (hle : lower ≤ upper) (hstable : p.stableVariation < v)
    (hvolatile : v < p.volatileVariation)
    (hfits : (upper.toNat - lower.toNat) * (v.toNat - p.stableVariation.toNat) < UInt64.size) :
    ((upper - lower) * (v - p.stableVariation) / (p.volatileVariation - p.stableVariation)).toNat =
      p.covered (upper.toNat - lower.toNat) v := by
  have hspan : (p.volatileVariation - p.stableVariation).toNat = p.span :=
    UInt64.toNat_sub_of_le _ _ (UInt64.le_of_lt (UInt64.lt_trans hstable hvolatile))
  have hplace : v.toNat - p.stableVariation.toNat = p.place v := by
    have hlt := UInt64.lt_iff_toNat_lt.1 hvolatile
    unfold place span
    omega
  rw [UInt64.toNat_div, UInt64.toNat_mul, UInt64.toNat_sub_of_le _ _ hle,
    UInt64.toNat_sub_of_le _ _ (UInt64.le_of_lt hstable), Nat.mod_eq_of_lt hfits, hspan, hplace]
  rfl

namespace Consistent

variable (h : p.Consistent)

include h

theorem span_pos : 0 < p.span := Nat.sub_pos_of_lt (UInt64.lt_iff_toNat_lt.1 h.stable_lt)

theorem covered_of_ge (height : Nat) {v : UInt64} (hv : p.volatileVariation ≤ v) :
    p.covered height v = height := by
  have hplace : p.place v = p.span :=
    Nat.min_eq_right (Nat.sub_le_sub_right (UInt64.le_iff_toNat_le.1 hv) _)
  rw [covered, hplace, Nat.mul_div_cancel _ h.span_pos]

variable (hfit : p.ProductsFit)

include hfit

/-- The three bands are one way, up or down from the stable target. -/
theorem toNat_ofVariation (v : UInt64) : (p.ofVariation v).toNat =
    if p.stableTarget ≤ p.volatileTarget then
      p.stableTarget.toNat + p.covered (p.volatileTarget.toNat - p.stableTarget.toNat) v
    else p.stableTarget.toNat - p.covered (p.stableTarget.toNat - p.volatileTarget.toNat) v := by
  unfold ofVariation
  split
  · next hvolatile =>
    rw [h.covered_of_ge _ hvolatile, h.covered_of_ge _ hvolatile]
    split
    · next hup =>
      have hle := UInt64.le_iff_toNat_le.1 hup
      omega
    · next hdown =>
      have hlt := UInt64.lt_iff_toNat_lt.1 (UInt64.not_le.1 hdown)
      omega
  · next hbelow =>
    split
    · next hstable =>
      rw [covered_of_le _ hstable, covered_of_le _ hstable]
      exact (ite_self _).symm
    · next habove =>
      have hstable := UInt64.not_le.1 habove
      have hvolatile := UInt64.not_le.1 hbelow
      have hfits := hfit v hstable hvolatile
      dsimp only
      split
      · next hup =>
        have hle := UInt64.le_iff_toNat_le.1 hup
        rw [absDiff, Nat.sub_eq_zero_of_le hle, Nat.add_zero] at hfits
        have hmost := covered_le (p := p) (p.volatileTarget.toNat - p.stableTarget.toNat) v
        have hword := p.volatileTarget.toNat_lt
        rw [UInt64.toNat_add, toNat_covered hup hstable hvolatile hfits,
          Nat.mod_eq_of_lt (by omega)]
      · next hdown =>
        have hup := UInt64.le_of_lt (UInt64.not_le.1 hdown)
        have hle := UInt64.le_iff_toNat_le.1 hup
        rw [absDiff, Nat.sub_eq_zero_of_le hle, Nat.zero_add] at hfits
        have hmost := covered_le (p := p) (p.stableTarget.toNat - p.volatileTarget.toNat) v
        have hshare := toNat_covered hup hstable hvolatile hfits
        have hcovered : (p.stableTarget - p.volatileTarget) * (v - p.stableVariation) /
            (p.volatileVariation - p.stableVariation) ≤ p.stableTarget := by
          rw [UInt64.le_iff_toNat_le, hshare]
          omega
        rw [UInt64.toNat_sub_of_le _ _ hcovered, hshare]

theorem ofVariation_of_le {v : UInt64} (hv : v ≤ p.stableVariation) :
    p.ofVariation v = p.stableTarget := by
  refine UInt64.toNat_inj.1 ?_
  rw [h.toNat_ofVariation hfit, covered_of_le _ hv, covered_of_le _ hv]
  exact ite_self _

theorem ofVariation_rises (hup : p.stableTarget ≤ p.volatileTarget) {v w : UInt64} (hvw : v ≤ w) :
    p.stableTarget ≤ p.ofVariation v ∧ p.ofVariation v ≤ p.ofVariation w ∧
      p.ofVariation w ≤ p.volatileTarget := by
  have hle := UInt64.le_iff_toNat_le.1 hup
  have hmono := covered_mono (p := p) (p.volatileTarget.toNat - p.stableTarget.toNat) hvw
  have hwhole := covered_le (p := p) (p.volatileTarget.toNat - p.stableTarget.toNat) w
  rw [UInt64.le_iff_toNat_le, UInt64.le_iff_toNat_le, UInt64.le_iff_toNat_le,
    h.toNat_ofVariation hfit, h.toNat_ofVariation hfit, if_pos hup, if_pos hup]
  omega

theorem ofVariation_falls (hdown : p.volatileTarget < p.stableTarget) {v w : UInt64} (hvw : v ≤ w) :
    p.volatileTarget ≤ p.ofVariation w ∧ p.ofVariation w ≤ p.ofVariation v ∧
      p.ofVariation v ≤ p.stableTarget := by
  have hlt := UInt64.lt_iff_toNat_lt.1 hdown
  have hmono := covered_mono (p := p) (p.stableTarget.toNat - p.volatileTarget.toNat) hvw
  have hwhole := covered_le (p := p) (p.stableTarget.toNat - p.volatileTarget.toNat) w
  rw [UInt64.le_iff_toNat_le, UInt64.le_iff_toNat_le, UInt64.le_iff_toNat_le,
    h.toNat_ofVariation hfit, h.toNat_ofVariation hfit, if_neg (UInt64.not_le.2 hdown),
    if_neg (UInt64.not_le.2 hdown)]
  omega

end Consistent

/-! ## The daily bounds -/

theorem toNat_clamped (t : UInt64) :
    (p.clamped t).toNat = max p.minDaily.toNat (min t.toNat p.maxDaily.toNat) := by
  unfold clamped
  rw [UInt64.toNat_max, UInt64.toNat_min]

theorem clamped_mono {t u : UInt64} (h : t ≤ u) : p.clamped t ≤ p.clamped u := by
  rw [UInt64.le_iff_toNat_le] at h ⊢
  rw [toNat_clamped, toNat_clamped]
  omega

theorem Consistent.clamped_mem (h : p.Consistent) (t : UInt64) :
    p.minDaily ≤ p.clamped t ∧ p.clamped t ≤ p.maxDaily := by
  have hle := UInt64.le_iff_toNat_le.1 h.minDaily_le
  rw [UInt64.le_iff_toNat_le, UInt64.le_iff_toNat_le, toNat_clamped]
  omega

/-! ## The course of the target -/

/-- A target that moves with the variation between the stable and the volatile target, each held
within the daily bounds. It is at the one up to the stable variation, at the other from the volatile
variation on, and never turns back. -/
structure Slides (p : TargetParams) (target : UInt64 → UInt64) : Prop where
  stable : ∀ v ≤ p.stableVariation, target v = p.clamped p.stableTarget
  volatile : ∀ v, p.volatileVariation ≤ v → target v = p.clamped p.volatileTarget
  rises : p.stableTarget ≤ p.volatileTarget → ∀ v w, v ≤ w →
    p.clamped p.stableTarget ≤ target v ∧ target v ≤ target w ∧
      target w ≤ p.clamped p.volatileTarget
  falls : p.volatileTarget < p.stableTarget → ∀ v w, v ≤ w →
    p.clamped p.volatileTarget ≤ target w ∧ target w ≤ target v ∧
      target v ≤ p.clamped p.stableTarget

theorem Consistent.slides (h : p.Consistent) (hfit : p.ProductsFit) :
    p.Slides fun v => p.clamped (p.ofVariation v) where
  stable v hv := by rw [h.ofVariation_of_le hfit hv]
  volatile v hv := by rw [ofVariation, if_pos hv]
  rises hup _ _ hvw := by
    obtain ⟨hlo, hmono, hhi⟩ := h.ofVariation_rises hfit hup hvw
    exact ⟨clamped_mono hlo, clamped_mono hmono, clamped_mono hhi⟩
  falls hdown _ _ hvw := by
    obtain ⟨hlo, hmono, hhi⟩ := h.ofVariation_falls hfit hdown hvw
    exact ⟨clamped_mono hlo, clamped_mono hmono, clamped_mono hhi⟩

/-- The early days in seconds fit a word if that many have passed. -/
theorem isEarly_of_past {first now : UInt64}
    (h : p.earlyDays.toNat * secondsPerDay ≤ now.toNat - first.toNat) :
    p.isEarly (some first) now = false := by
  have hword := now.toNat_lt
  have hseconds : (UInt64.ofNat secondsPerDay).toNat = secondsPerDay := rfl
  have hproduct : (p.earlyDays * .ofNat secondsPerDay).toNat = p.earlyDays.toNat * secondsPerDay := by
    rw [UInt64.toNat_mul, hseconds, Nat.mod_eq_of_lt (by omega)]
  unfold isEarly
  rw [hproduct]
  exact decide_eq_false (Nat.not_lt.2 h)

/-- A checked configuration always has a target, within the daily bounds. Past the early days, the
target slides with the variation, unless a product on the way is cut. -/
theorem daily?_slides {c : Config} (hc : c.fault? = none) (firstSeen : Option UInt64)
    (now : UInt64) :
    ∃ target : Option UInt64 → UInt64,
      (∀ v, c.targets.daily? firstSeen now v = some (target v) ∧
        c.targets.minDaily ≤ target v ∧ target v ≤ c.targets.maxDaily) ∧
      (c.targets.ProductsFit → ∀ first, firstSeen = some first →
        c.targets.earlyDays.toNat * secondsPerDay ≤ now.toNat - first.toNat →
          c.targets.Slides fun v => target (some v)) := by
  have h := Config.targets_consistent hc
  refine ⟨fun v => c.targets.clamped (c.targets.unclamped firstSeen now v),
    fun v => ⟨if_pos h.minDaily_le, h.clamped_mem _⟩, fun hfit first hfirst hpast => ?_⟩
  subst hfirst
  have hearly := isEarly_of_past hpast
  have hunclamped (v : UInt64) :
      c.targets.unclamped (some first) now (some v) = c.targets.ofVariation v := by
    unfold unclamped
    rw [hearly]
  simp only [hunclamped]
  exact h.slides hfit

/-- By the defaults, half the way between the variations is half the way between the targets. -/
theorem daily?_slides_of_defaults :
    ∃ target : Option UInt64 → UInt64,
      (∀ v, ({} : TargetParams).daily? (some 1744816000) 1750000000 v = some (target v)) ∧
      ({} : TargetParams).Slides (fun v => target (some v)) ∧
      target (some 500) = 75 ∧ target (some 1000) = 112 ∧ target (some 1500) = 150 := by
  have hc : ({} : Config).fault? = none := by decide
  have hfit : ({} : TargetParams).ProductsFit := by
    intro v hstable hvolatile
    have hv : v.toNat < 1500 := UInt64.lt_iff_toNat_lt.1 hvolatile
    change 75 * (v.toNat - 500) < 18446744073709551616
    omega
  obtain ⟨target, htarget, hslides⟩ := daily?_slides hc (some 1744816000) 1750000000
  have hvalue (v t : UInt64)
      (ht : ({} : TargetParams).daily? (some 1744816000) 1750000000 (some v) = some t) :
      target (some v) = t := Option.some.inj ((htarget (some v)).1.symm.trans ht)
  refine ⟨target, fun v => (htarget v).1, hslides hfit _ rfl (by decide), ?_⟩
  exact ⟨hvalue _ _ (by decide), hvalue _ _ (by decide), hvalue _ _ (by decide)⟩

end TargetParams

end WaterPeg
