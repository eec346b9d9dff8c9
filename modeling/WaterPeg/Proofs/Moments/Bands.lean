import WaterPeg.Proofs.Moments.Exact

/-!
Which values are accepted beside a history. If the history is not too long and its samples are
observable, the comparison in 128 bits is exact for every value, and the accepted values are all those
up to some distance from the mean.
-/
namespace WaterPeg

variable {history : List UInt64} {m : Moments} {k value : UInt64}

/-! ## Exact comparisons -/

/-- Neither the spread nor its product with a checked width comes near the clamp. -/
theorem spread_mul_lt (hlength : history.length ≤ 10000000)
    (hhistory : ∀ v ∈ history, v.toNat ≤ maxObservation) :
    3000 * 3000 * spread history < UInt128.size - 1 := by
  have hspread : spread history ≤ 10000000 * (maxObservation * maxObservation) :=
    Nat.le_trans (spread_le hhistory) (Nat.mul_le_mul_right _ hlength)
  exact Nat.lt_of_le_of_lt (Nat.mul_le_mul_left _ hspread) (by decide)

theorem Moments.Describes.toNat_squares_eq (h : m.Describes history)
    (hlt : 3000 * 3000 * spread history < UInt128.size - 1) :
    m.squares.toNat = spread history := by
  rw [h.toNat_squares]
  omega

theorem Moments.Describes.squares_eq_zero_iff (h : m.Describes history) :
    m.squares = 0 ↔ spread history = 0 := by
  have hsize : 0 < UInt128.size - 1 := by decide
  have hzero : (0 : UInt128).toNat = 0 := rfl
  rw [← UInt128.toNat_inj, h.toNat_squares, hzero]
  omega

theorem Moments.Describes.within_iff_spread (h : m.Describes history)
    (hspread : 0 < spread history) (hlt : 3000 * 3000 * spread history < UInt128.size - 1)
    (hk : k.toNat ≤ 3000) :
    m.within value k ↔
      absDiff value.toNat (average history) * absDiff value.toNat (average history) *
        (history.length - 1) * 1000000 ≤ k.toNat * k.toNat * spread history := by
  have hcount : 2 ≤ m.count := h.count_eq ▸ two_le_length_of_spread_pos hspread
  have hsquares := h.toNat_squares_eq hlt
  have hunclamped : k.toNat * k.toNat * m.squares.toNat < UInt128.size - 1 := by
    rw [hsquares]
    exact Nat.lt_of_le_of_lt (Nat.mul_le_mul_right _ (Nat.mul_self_le_mul_self hk)) hlt
  rw [within_iff hcount hunclamped, hsquares, squaredDistance, h.toNat_mean, h.count_eq]

/-- Being within the deviation that is reported, which is rounded down, is enough. -/
theorem Moments.Describes.within_of_le_stdDev (h : m.Describes history)
    (hspread : 0 < spread history)
    (hle : absDiff value.toNat m.mean.toNat * 1000 ≤ k.toNat * m.stdDev.toNat) :
    m.within value k := by
  have hcount : 2 ≤ m.count := h.count_eq ▸ two_le_length_of_spread_pos hspread
  have hroot : m.stdDev.toNat * m.stdDev.toNat * (m.count - 1) ≤ m.squares.toNat := by
    rw [m.toNat_stdDev hcount]
    exact Nat.mul_le_of_le_div _ _ _ (Nat.sqrt_le _)
  apply within_of_le
  calc
    squaredDistance m.mean value * (m.count - 1) * 1000000 =
        absDiff value.toNat m.mean.toNat * 1000 * (absDiff value.toNat m.mean.toNat * 1000) *
          (m.count - 1) := by
      rw [squaredDistance]
      ring
    _ ≤ k.toNat * m.stdDev.toNat * (k.toNat * m.stdDev.toNat) * (m.count - 1) :=
      Nat.mul_le_mul_right _ (Nat.mul_self_le_mul_self hle)
    _ = k.toNat * k.toNat * (m.stdDev.toNat * m.stdDev.toNat * (m.count - 1)) := by ring
    _ ≤ k.toNat * k.toNat * m.squares.toNat := Nat.mul_le_mul_left _ hroot

/-! ## Accepted values -/

namespace Band

variable {band : Band}

def Accepts (band : Band) (history : List UInt64) (value : UInt64) : Prop :=
  ∃ m, band.judge history value = .ok m

theorem accepts_nil : band.Accepts [] value := ⟨none, rfl⟩

theorem accepts_iff_moments (hm : Moments.of? history = some m) :
    band.Accepts history value ↔
      m.count < band.minHistory.toNat ∨
        (m.squares = 0 ∧ absDiff value.toNat m.mean.toNat ≤
          m.mean.toNat * band.tolerance.toNat / basisPoints) ∨
        (m.squares ≠ 0 ∧ m.within value band.width) := by
  unfold Accepts judge
  rw [hm]
  dsimp only
  split
  · next hfew => simp [hfew]
  next hmany =>
  split
  · next hzero =>
    split
    · next hle => simp [hzero, hle]
    · next hgt => simp [hmany, hzero, hgt]
  · next hpos =>
    split
    · next hwithin => simp [hpos, hwithin]
    · next hout => simp [hmany, hpos, hout]

/-- The greatest distance from the mean at which values are accepted. -/
def radius (band : Band) (history : List UInt64) : Nat :=
  if history.length < band.minHistory.toNat then UInt64.size
  else if spread history = 0 then average history * band.tolerance.toNat / basisPoints
  else (band.width.toNat * band.width.toNat * spread history /
    ((history.length - 1) * 1000000)).sqrt

section Rule

variable (hlength : history.length ≤ 10000000)
  (hhistory : ∀ v ∈ history, v.toNat ≤ maxObservation) (hwidth : band.width.toNat ≤ 3000)
  (hmin : 0 < band.minHistory.toNat)

include hlength hhistory hwidth hmin

/-- The rule by which a value is accepted, in numbers without a bound. -/
theorem accepts_iff (value : UInt64) :
    band.Accepts history value ↔
      history.length < band.minHistory.toNat ∨
        ((∀ v ∈ history, v.toNat = average history) ∧
          absDiff value.toNat (average history) * basisPoints ≤
            average history * band.tolerance.toNat) ∨
        ((¬ ∀ v ∈ history, v.toNat = average history) ∧
          absDiff value.toNat (average history) * absDiff value.toNat (average history) *
            (history.length - 1) * 1000000 ≤
              band.width.toNat * band.width.toNat * spread history) := by
  by_cases hnil : history = []
  · subst hnil
    exact iff_of_true accepts_nil (.inl hmin)
  obtain ⟨m, hm⟩ := Moments.exists_of?_eq_some hnil
  have hdescribes := Moments.describes_of_of? hm
  have hlt := spread_mul_lt hlength hhistory
  have hbasis : 0 < basisPoints := by decide
  rw [accepts_iff_moments hm, hdescribes.count_eq, hdescribes.toNat_mean,
    Nat.le_div_iff_mul_le hbasis, Ne, hdescribes.squares_eq_zero_iff, ← spread_eq_zero_iff]
  by_cases hspread : spread history = 0
  · simp only [hspread, true_and, not_true, false_and]
  · have hpos := Nat.pos_of_ne_zero hspread
    simp only [hspread, false_and, not_false_eq_true, true_and,
      hdescribes.within_iff_spread hpos hlt hwidth]

theorem accepts_iff_le_radius (value : UInt64) :
    band.Accepts history value ↔
      absDiff value.toNat (average history) ≤ band.radius history := by
  rw [accepts_iff hlength hhistory hwidth hmin value, ← spread_eq_zero_iff]
  unfold radius
  by_cases hfew : history.length < band.minHistory.toNat
  · have hvalue := value.toNat_lt_size
    have haverage := average_lt_size history
    have hle : absDiff value.toNat (average history) ≤ UInt64.size := by
      unfold absDiff
      omega
    rw [if_pos hfew]
    exact iff_of_true (.inl hfew) hle
  rw [if_neg hfew]
  by_cases hspread : spread history = 0
  · have hbasis : 0 < basisPoints := by decide
    rw [if_pos hspread, Nat.le_div_iff_mul_le hbasis]
    simp only [hfew, hspread, false_or, true_and, not_true, false_and, or_false]
  · have hcount := two_le_length_of_spread_pos (Nat.pos_of_ne_zero hspread)
    have hpos : 0 < (history.length - 1) * 1000000 := by omega
    rw [if_neg hspread, Nat.le_sqrt, Nat.le_div_iff_mul_le hpos, ← Nat.mul_assoc]
    simp only [hfew, hspread, false_or, false_and, not_false_eq_true, true_and]

end Rule

/-- The comparison in words is the statistical rule, and that for every word as the value. So the
accepted values are an interval about the mean, with the mean in it, and reach at least as far as the
width times the reported deviation. -/
theorem accepts_exact (hlength : history.length ≤ 10000000)
    (hhistory : ∀ v ∈ history, v.toNat ≤ maxObservation) (hwidth : band.width.toNat ≤ 3000)
    (hmin : 0 < band.minHistory.toNat) :
    (∀ value, band.Accepts history value ↔
      history.length < band.minHistory.toNat ∨
        ((∀ v ∈ history, v.toNat = average history) ∧
          absDiff value.toNat (average history) * 10000 ≤
            average history * band.tolerance.toNat) ∨
        ((¬ ∀ v ∈ history, v.toNat = average history) ∧
          absDiff value.toNat (average history) ^ 2 * (history.length - 1) * 1000000 ≤
            band.width.toNat ^ 2 * spread history)) ∧
      (∃ radius, ∀ value,
        band.Accepts history value ↔ absDiff value.toNat (average history) ≤ radius) ∧
      ∀ m, Moments.of? history = some m →
        m.mean.toNat = average history ∧ band.Accepts history m.mean ∧
          (0 < spread history →
            m.stdDev.toNat = (spread history / (history.length - 1)).sqrt ∧
              ∀ value, absDiff value.toNat m.mean.toNat * 1000 ≤
                band.width.toNat * m.stdDev.toNat → band.Accepts history value) := by
  refine ⟨fun value => ?_, ⟨band.radius history, accepts_iff_le_radius hlength hhistory hwidth hmin⟩,
    fun m hm => ?_⟩
  · rw [accepts_iff hlength hhistory hwidth hmin value, Nat.pow_two, Nat.pow_two]
    rfl
  have hdescribes := Moments.describes_of_of? hm
  refine ⟨hdescribes.toNat_mean, ?_, fun hspread => ⟨?_, fun value hle => ?_⟩⟩
  · rw [accepts_iff_le_radius hlength hhistory hwidth hmin, hdescribes.toNat_mean,
      absDiff_eq_zero_iff.2 rfl]
    exact Nat.zero_le _
  · have hcount : 2 ≤ m.count := hdescribes.count_eq ▸ two_le_length_of_spread_pos hspread
    rw [m.toNat_stdDev hcount, hdescribes.count_eq,
      hdescribes.toNat_squares_eq (spread_mul_lt hlength hhistory)]
  · have hpos : m.squares ≠ 0 := by
      rw [Ne, hdescribes.squares_eq_zero_iff]
      exact Nat.ne_of_gt hspread
    exact (accepts_iff_moments hm).2
      (.inr (.inr ⟨hpos, hdescribes.within_of_le_stdDev hspread hle⟩))

def fiveShops : List UInt64 := [1000000, 1010000, 990000, 1000000, 1020000]

def widest : Band := ⟨3000, 5, 1000⟩

/-- The edge of the band is where the rule says, a little beyond three times the rounded deviation. -/
theorem accepts_of_fiveShops :
    widest.Accepts fiveShops 1038203 ∧ widest.Accepts fiveShops 1038205 ∧
      ¬ widest.Accepts fiveShops 1038206 := by
  have hlength : fiveShops.length ≤ 10000000 := by decide
  have hhistory : ∀ v ∈ fiveShops, v.toNat ≤ maxObservation := by
    simp [fiveShops, maxObservation, microPerUnit]
  have hmoments : Moments.of? fiveShops = some ⟨5, 1004000, 520000000⟩ := by decide +kernel
  have hwidth : widest.width.toNat ≤ 3000 := by decide
  obtain ⟨hrule, -, hdeviation⟩ := accepts_exact hlength hhistory hwidth (by decide)
  obtain ⟨-, -, hwithin⟩ := hdeviation _ hmoments
  have hspread : 0 < spread fiveShops := by decide +kernel
  have hdiffer : ¬ ∀ v ∈ fiveShops, v.toNat = average fiveShops := by
    rw [← spread_eq_zero_iff]
    exact Nat.ne_of_gt hspread
  refine ⟨(hwithin hspread).2 1038203 (by decide +kernel),
    (hrule 1038205).2 (.inr (.inr ⟨hdiffer, by decide +kernel⟩)), ?_⟩
  intro houtside
  rcases (hrule 1038206).1 houtside with hfew | ⟨hsame, -⟩ | ⟨-, hnear⟩
  · exact absurd hfew (by decide)
  · exact hdiffer hsame
  · exact absurd hnear (by decide +kernel)

end Band

end WaterPeg
