import Mathlib.Algebra.BigOperators.Ring.List
import Mathlib.Algebra.Order.BigOperators.Group.List
import Mathlib.Algebra.Order.Group.Nat
import WaterPeg.Proofs.Moments
import WaterPeg.Proofs.SquareRoot

/-!
What the words of the moments say about the samples, in numbers without a bound. The mean and the
deviation are never cut. The clamps of a comparison are on both sides, and may only let a value pass.
-/
namespace WaterPeg

/-! ## Sums -/

section Sums

variable {α : Type} {f : α → Nat} {b : Nat} {xs : List α}

theorem length_mul_le_sum_map (h : ∀ x ∈ xs, b ≤ f x) : xs.length * b ≤ (xs.map f).sum := by
  have hsum := List.card_nsmul_le_sum (xs.map f) b (by simpa using h)
  rwa [List.length_map] at hsum

theorem sum_map_le_length_mul (h : ∀ x ∈ xs, f x ≤ b) : (xs.map f).sum ≤ xs.length * b := by
  have hsum := List.sum_le_card_nsmul (xs.map f) b (by simpa using h)
  rwa [List.length_map] at hsum

end Sums

/-! ## The exact moments of some samples -/

def average (values : List UInt64) : Nat := total values / values.length

/-- The sum of the squared distances of some samples from their mean. -/
def spread (values : List UInt64) : Nat :=
  (values.map fun v => absDiff v.toNat (average values) * absDiff v.toNat (average values)).sum

variable {values : List UInt64}

/-- The mean is neither below nor above all samples. -/
theorem average_mem {lo hi : Nat} (hne : values ≠ [])
    (h : ∀ v ∈ values, lo ≤ v.toNat ∧ v.toNat ≤ hi) :
    lo ≤ average values ∧ average values ≤ hi := by
  have hpos : 0 < values.length := List.length_pos_iff.2 hne
  have hlo : values.length * lo ≤ (values.map UInt64.toNat).sum :=
    length_mul_le_sum_map fun v hv => (h v hv).1
  have hhi : (values.map UInt64.toNat).sum ≤ values.length * hi :=
    sum_map_le_length_mul fun v hv => (h v hv).2
  rw [← total_eq_sum_map] at hlo hhi
  constructor
  · rw [average, Nat.le_div_iff_mul_le hpos, Nat.mul_comm]
    exact hlo
  · exact Nat.div_le_of_le_mul hhi

theorem total_le (values : List UInt64) : total values ≤ values.length * (UInt64.size - 1) := by
  rw [total_eq_sum_map]
  exact sum_map_le_length_mul fun v _ => Nat.le_sub_one_of_lt v.toNat_lt_size

theorem average_lt_size (values : List UInt64) : average values < UInt64.size :=
  Nat.lt_of_le_of_lt (Nat.div_le_of_le_mul (total_le values)) (by decide)

theorem absDiff_eq_zero_iff {a b : Nat} : absDiff a b = 0 ↔ a = b := by
  unfold absDiff
  omega

theorem spread_le {b : Nat} (h : ∀ v ∈ values, v.toNat ≤ b) :
    spread values ≤ values.length * (b * b) := by
  refine sum_map_le_length_mul fun v hv => ?_
  have haverage : average values ≤ b :=
    (average_mem (List.ne_nil_of_mem hv) fun w hw => ⟨Nat.zero_le _, h w hw⟩).2
  have hdistance : absDiff v.toNat (average values) ≤ b := by
    have hvalue := h v hv
    unfold absDiff
    omega
  exact Nat.mul_self_le_mul_self hdistance

/-- One sample has no spread. -/
theorem two_le_length_of_spread_pos (h : 0 < spread values) : 2 ≤ values.length := by
  match values with
  | [] => exact absurd h (Nat.lt_irrefl 0)
  | [v] =>
    have hzero : spread [v] = 0 := by simp [spread, average, total, absDiff]
    omega
  | _ :: _ :: values => exact Nat.le_add_left 2 values.length

theorem spread_eq_zero_iff : spread values = 0 ↔ ∀ v ∈ values, v.toNat = average values := by
  unfold spread
  simp only [List.sum_eq_zero_iff_forall_eq_nat, List.forall_mem_map, Nat.mul_eq_zero, or_self,
    absDiff_eq_zero_iff]

namespace Moments

variable {m : Moments}

/-- These are the moments of some samples, the sum of squares up to the clamp. -/
structure Describes (m : Moments) (values : List UInt64) : Prop where
  ne_nil : values ≠ []
  count_eq : m.count = values.length
  toNat_mean : m.mean.toNat = average values
  toNat_squares : m.squares.toNat = min (spread values) (UInt128.size - 1)

theorem sum_squaredDistance {mean : UInt64} (h : mean.toNat = average values) :
    (values.map (squaredDistance mean)).sum = spread values :=
  congrArg List.sum (List.map_congr_left fun v _ => by rw [squaredDistance, h])

theorem describes_of_of? (h : of? values = some m) : m.Describes values := by
  unfold of? at h
  split at h
  · exact nomatch h
  next hne =>
  rw [List.isEmpty_iff] at hne
  have htoNat : (UInt64.ofNat (total values / values.length)).toNat = average values :=
    UInt64.toNat_ofNat_of_lt' (average_lt_size values)
  obtain rfl := Option.some.inj h
  refine ⟨hne, rfl, htoNat, ?_⟩
  rw [UInt128.toNat_ofNatClamp, foldl_add_eq_sum_map, sum_squaredDistance htoNat]

theorem exists_of?_eq_some (hne : values ≠ []) : ∃ m, of? values = some m := by
  unfold of?
  rw [if_neg (by rwa [List.isEmpty_iff])]
  exact ⟨_, rfl⟩

theorem Describes.mean_mem (h : m.Describes values) {lo hi : UInt64}
    (hvalues : ∀ v ∈ values, lo ≤ v ∧ v ≤ hi) : lo ≤ m.mean ∧ m.mean ≤ hi := by
  rw [UInt64.le_iff_toNat_le, UInt64.le_iff_toNat_le, h.toNat_mean]
  exact average_mem h.ne_nil fun v hv =>
    ⟨UInt64.le_iff_toNat_le.1 (hvalues v hv).1, UInt64.le_iff_toNat_le.1 (hvalues v hv).2⟩

/-- The root of a number of 128 bits fits a word. -/
theorem toNat_stdDev (h : 2 ≤ m.count) :
    m.stdDev.toNat = (m.squares.toNat / (m.count - 1)).sqrt := by
  have hle : m.squares.toNat / (m.count - 1) < UInt64.size * UInt64.size :=
    Nat.lt_of_le_of_lt (Nat.div_le_self ..) m.squares.toNat_lt
  unfold stdDev
  rw [if_neg (by omega), squareRoot_eq_sqrt, UInt64.toNat_ofNat_of_lt' (Nat.sqrt_lt.2 hle)]

/-! ## Comparing with the deviation -/

/-- Both sides of the comparison of a value with the deviation, without the clamps. -/
theorem within_of_le {value k : UInt64}
    (h : squaredDistance m.mean value * (m.count - 1) * 1000000 ≤
      k.toNat * k.toNat * m.squares.toNat) : m.within value k := by
  unfold within clampedMul
  split
  · rfl
  · rw [decide_eq_true_eq]
    omega

theorem of_not_within {value k : UInt64} (h : ¬ m.within value k) :
    2 ≤ m.count ∧ k.toNat * k.toNat * m.squares.toNat < UInt128.size - 1 ∧
      k.toNat * k.toNat * m.squares.toNat <
        squaredDistance m.mean value * (m.count - 1) * 1000000 := by
  unfold within clampedMul at h
  split at h
  · exact absurd rfl h
  next hcount =>
  rw [decide_eq_true_eq] at h
  omega

/-- Unless the side of the deviation is clamped, the clamps change nothing. -/
theorem within_iff {value k : UInt64} (hcount : 2 ≤ m.count)
    (hk : k.toNat * k.toNat * m.squares.toNat < UInt128.size - 1) :
    m.within value k ↔ squaredDistance m.mean value * (m.count - 1) * 1000000 ≤
      k.toNat * k.toNat * m.squares.toNat := by
  refine ⟨fun h => ?_, within_of_le⟩
  unfold within clampedMul at h
  rw [if_neg (by omega), decide_eq_true_eq] at h
  omega

end Moments

end WaterPeg
