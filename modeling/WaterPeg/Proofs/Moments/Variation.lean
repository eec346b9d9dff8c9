import WaterPeg.Proofs.Moments.Exact

/-!
The variation of samples, their deviation in basis points of the mean. Samples are not negative, so
they are spread widest, for their mean, when one of them is the whole sum. So the square of the
variation grows no faster than the number of samples, and no quotient on the way to it is cut.
-/
namespace WaterPeg

/-! ## Squares of sums -/

theorem sum_map_sq_le {α : Type} (f : α → Nat) (xs : List α) :
    (xs.map fun x => f x * f x).sum ≤ (xs.map f).sum * (xs.map f).sum := by
  induction xs with
  | nil => exact Nat.le_refl 0
  | cons x xs ih =>
    simp only [List.map_cons, List.sum_cons]
    generalize (xs.map f).sum = s at ih ⊢
    calc
      f x * f x + (xs.map fun x => f x * f x).sum ≤ f x * f x + s * s :=
        Nat.add_le_add_left ih _
      _ ≤ f x * f x + s * s + 2 * f x * s := Nat.le_add_right _ _
      _ = (f x + s) * (f x + s) := by ring

theorem absDiff_sq (a b : Nat) : absDiff a b * absDiff a b + 2 * b * a = a * a + b * b := by
  unfold absDiff
  rcases Nat.le_total a b with h | h
  · obtain ⟨d, rfl⟩ := Nat.exists_eq_add_of_le h
    rw [Nat.sub_eq_zero_of_le h, Nat.add_sub_cancel_left]
    ring
  · obtain ⟨d, rfl⟩ := Nat.exists_eq_add_of_le h
    rw [Nat.sub_eq_zero_of_le h, Nat.add_sub_cancel_left]
    ring

/-- The sum of squared distances from a number, by the sum and the sum of squares. -/
theorem sum_map_absDiff_sq {α : Type} (f : α → Nat) (c : Nat) (xs : List α) :
    (xs.map fun x => absDiff (f x) c * absDiff (f x) c).sum + 2 * c * (xs.map f).sum =
      (xs.map fun x => f x * f x).sum + xs.length * (c * c) := by
  induction xs with
  | nil => simp
  | cons x xs ih =>
    have hx := absDiff_sq (f x) c
    simp only [List.map_cons, List.sum_cons, List.length_cons]
    linarith only [hx, ih]

/-! ## The widest spread -/

variable {values : List UInt64} {m : Moments}

theorem spread_add_le (values : List UInt64) :
    spread values + 2 * average values * total values ≤
      total values * total values + values.length * (average values * average values) := by
  have hsquares := sum_map_sq_le UInt64.toNat values
  have hspread := sum_map_absDiff_sq UInt64.toNat (average values) values
  rw [total_eq_sum_map]
  unfold spread
  omega

/-- Samples whose mean is at least 1 are spread no wider than if one of them was the whole sum and the
sum as large as the mean allows. -/
theorem spread_le_sq_average {n : Nat} (hlength : values.length = n + 1)
    (haverage : 0 < average values) :
    spread values ≤ n * ((4 * n + 1) * (average values * average values)) := by
  have hspread := spread_add_le values
  have hsum : values.length * average values + total values % values.length = total values :=
    Nat.div_add_mod ..
  have hrest : total values % values.length ≤ n := by
    have hlt : total values % values.length < values.length := Nat.mod_lt _ (by omega)
    omega
  rw [hlength] at hspread hsum hrest
  generalize total values % (n + 1) = rest at hsum hrest
  generalize average values = mean at hspread hsum haverage ⊢
  have hscaled : rest ≤ n * mean := Nat.le_trans hrest (Nat.le_mul_of_pos_right n haverage)
  have hsquare : rest * rest ≤ n * mean * (n * mean) := Nat.mul_self_le_mul_self hscaled
  have hmixed : 2 * n * mean * rest ≤ 2 * n * mean * (n * mean) := Nat.mul_le_mul_left _ hscaled
  rw [← hsum] at hspread
  linarith only [hspread, hsquare, hmixed]

namespace Moments

theorem Describes.stdDev_sq_le (h : m.Describes values) (hmean : 0 < average values) :
    m.stdDev.toNat * m.stdDev.toNat ≤ 4 * values.length * (average values * average values) := by
  by_cases hone : m.count < 2
  · rw [stdDev, if_pos hone]
    exact Nat.zero_le _
  obtain ⟨n, hn⟩ := Nat.exists_eq_add_of_le' (Nat.le_of_not_lt hone)
  have hlength : values.length = n + 1 + 1 := h.count_eq ▸ hn
  have hspread := spread_le_sq_average hlength hmean
  have hclamped : m.squares.toNat ≤ spread values := h.toNat_squares ▸ Nat.min_le_left ..
  rw [m.toNat_stdDev (Nat.le_of_not_lt hone), hn, hlength]
  generalize hquotient : m.squares.toNat / (n + 2 - 1) = quotient
  have hle : quotient ≤ (4 * (n + 1) + 1) * (average values * average values) := by
    rw [← hquotient]
    exact Nat.div_le_of_le_mul (Nat.le_trans hclamped hspread)
  calc
    quotient.sqrt * quotient.sqrt ≤ quotient := Nat.sqrt_le quotient
    _ ≤ (4 * (n + 1) + 1) * (average values * average values) := hle
    _ ≤ 4 * (n + 1 + 1) * (average values * average values) := Nat.mul_le_mul_right _ (by omega)

/-- The variation before it is cut to a word. -/
theorem Describes.ratio_sq_le (h : m.Describes values) (hmean : 0 < average values) :
    (m.stdDev.toNat * basisPoints / average values) ^ 2 ≤ 10 ^ 8 * (4 * values.length) := by
  have hdeviation := h.stdDev_sq_le hmean
  generalize m.stdDev.toNat = deviation at hdeviation ⊢
  generalize hratio : deviation * basisPoints / average values = ratio
  have hscaled : ratio * average values ≤ deviation * basisPoints :=
    hratio ▸ Nat.div_mul_le_self ..
  refine Nat.le_of_mul_le_mul_right ?_ (Nat.mul_pos hmean hmean)
  calc
    ratio ^ 2 * (average values * average values) =
        ratio * average values * (ratio * average values) := by ring
    _ ≤ deviation * basisPoints * (deviation * basisPoints) := Nat.mul_self_le_mul_self hscaled
    _ = 10 ^ 8 * (deviation * deviation) := by
      rw [basisPoints]
      ring
    _ ≤ 10 ^ 8 * (4 * values.length * (average values * average values)) :=
      Nat.mul_le_mul_left _ hdeviation
    _ = 10 ^ 8 * (4 * values.length) * (average values * average values) := by ring

end Moments

/-- Of fewer samples than there are words, the mean and the variation are the exact quotients: neither
they nor the sum of the samples is cut. The square of the variation is bounded by the number of
samples. -/
theorem variation_exact (hvalues : values ≠ []) (hlength : values.length < 2 ^ 64) :
    ∃ m, Moments.of? values = some m ∧
      total values < UInt128.size ∧ m.mean.toNat = total values / values.length ∧
      (m.mean = 0 → m.variation = 0) ∧
      (m.mean ≠ 0 →
        m.variation.toNat = m.stdDev.toNat * 10000 / m.mean.toNat ∧
          m.variation.toNat ^ 2 ≤ 10 ^ 8 * (8 * values.length + 2)) := by
  obtain ⟨m, hm⟩ := Moments.exists_of?_eq_some hvalues
  have hdescribes := Moments.describes_of_of? hm
  refine ⟨m, hm, ?_, hdescribes.toNat_mean, fun hzero => if_pos hzero, fun hmean => ?_⟩
  · calc
      total values ≤ values.length * (UInt64.size - 1) := total_le values
      _ ≤ UInt64.size * (UInt64.size - 1) := Nat.mul_le_mul_right _ (Nat.le_of_lt hlength)
      _ < UInt128.size := by decide
  · have haverage : 0 < average values := by
      rw [← hdescribes.toNat_mean]
      exact Nat.pos_of_ne_zero fun hzero => hmean (UInt64.toNat_inj.1 hzero)
    have hratio := hdescribes.ratio_sq_le haverage
    have hfits : m.stdDev.toNat * basisPoints / average values < UInt64.size := by
      refine lt_of_pow_lt_pow_left₀ 2 (Nat.zero_le _) (Nat.lt_of_le_of_lt hratio ?_)
      calc
        10 ^ 8 * (4 * values.length) ≤ 10 ^ 8 * (4 * 2 ^ 64) := by omega
        _ < UInt64.size ^ 2 := by decide
    have hvariation : m.variation.toNat = m.stdDev.toNat * basisPoints / average values := by
      rw [Moments.variation, if_neg hmean, hdescribes.toNat_mean, UInt64.toNat_ofNat_of_lt' hfits]
    rw [hdescribes.toNat_mean, hvariation]
    exact ⟨rfl, Nat.le_trans hratio (by omega)⟩

/-- Four shops give their water away, and one asks for all of it. -/
def fourGiveaways : List UInt64 := [0, 0, 0, 0, 9]

/-- The deviation is four times the mean. -/
theorem variation_exact_fourGiveaways :
    fourGiveaways ≠ [] ∧ fourGiveaways.length < 2 ^ 64 ∧
      ∃ m, Moments.of? fourGiveaways = some m ∧ m.mean.toNat = 9 / 5 ∧
        m.variation.toNat = 4 * 10000 / (9 / 5) ∧ m.variation.toNat ^ 2 ≤ 10 ^ 8 * (8 * 5 + 2) := by
  have hne : fourGiveaways ≠ [] := List.cons_ne_nil _ _
  have hlength : fourGiveaways.length < 2 ^ 64 := by decide
  have hmoments : Moments.of? fourGiveaways = some ⟨5, 1, 68⟩ := by decide +kernel
  obtain ⟨m, hm, -, hmean, -, hvariation⟩ := variation_exact hne hlength
  obtain rfl := Option.some.inj (hm.symm.trans hmoments)
  obtain ⟨hquotient, hbound⟩ := hvariation (by decide)
  refine ⟨hne, hlength, _, hmoments, hmean, hquotient.trans ?_, hbound⟩
  decide +kernel

end WaterPeg
