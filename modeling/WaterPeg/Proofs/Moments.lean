import Mathlib.Algebra.GroupWithZero.Nat
import WaterPeg.Moments

/-! Statistics of samples in any order. -/
namespace WaterPeg

theorem foldl_add_eq_sum_map {α : Type} (f : α → Nat) (xs : List α) :
    xs.foldl (fun sum x => sum + f x) 0 = (xs.map f).sum := by
  rw [List.sum_eq_foldl, List.foldl_map]

theorem total_eq_sum_map (values : List UInt64) : total values = (values.map UInt64.toNat).sum :=
  foldl_add_eq_sum_map ..

variable {values values' : List UInt64}

theorem total_perm (h : values.Perm values') : total values = total values' := by
  rw [total_eq_sum_map, total_eq_sum_map]
  exact (h.map UInt64.toNat).sum_nat

theorem Moments.of?_perm (h : values.Perm values') : of? values = of? values' := by
  have hempty : values.isEmpty = values'.isEmpty := by
    rw [Bool.eq_iff_iff, List.isEmpty_iff_length_eq_zero, List.isEmpty_iff_length_eq_zero,
      h.length_eq]
  have hsquares (mean : UInt64) : (values.map (squaredDistance mean)).sum =
      (values'.map (squaredDistance mean)).sum := (h.map _).sum_nat
  simp only [of?, hempty, total_perm h, h.length_eq, foldl_add_eq_sum_map, hsquares]

theorem withoutOutliers_perm (h : values.Perm values') (k : UInt64) :
    (withoutOutliers values k).Perm (withoutOutliers values' k) := by
  unfold withoutOutliers
  rw [Moments.of?_perm h]
  cases Moments.of? values' with
  | none => exact .rfl
  | some m => exact h.filter _

/-- A summary says nothing of the order of the samples. -/
theorem Summary.of?_perm (h : values.Perm values') (k minSignificant : UInt64) :
    of? values k minSignificant = of? values' k minSignificant := by
  have hkept := withoutOutliers_perm h k
  unfold of?
  rw [Moments.of?_perm h]
  cases Moments.of? values' with
  | none => rfl
  | some raw =>
    dsimp only
    rw [Moments.of?_perm hkept, hkept.length_eq]

end WaterPeg
