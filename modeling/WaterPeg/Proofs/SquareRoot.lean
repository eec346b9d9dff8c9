import Mathlib.Data.Nat.Sqrt
import Mathlib.Tactic.Linarith
import Mathlib.Tactic.Ring
import WaterPeg.SquareRoot

/-! Newton's method from above ends at the integer square root. -/
namespace WaterPeg

/-- From above or below, a step of Newton's method lands at or above the root. -/
theorem sqrt_le_newtonStep (n : Nat) {x : Nat} (hx : 0 < x) : n.sqrt ≤ newtonStep n x := by
  have hsqrt := Nat.sqrt_le n
  have hmean : (2 * n.sqrt - x) * x ≤ n.sqrt * n.sqrt := by
    rcases Nat.le_total x (2 * n.sqrt) with hle | hge
    · obtain ⟨y, hy⟩ := Nat.exists_eq_add_of_le hle
      have hroot : n.sqrt * n.sqrt * 4 = (x + y) * (x + y) := by rw [← hy]; ring
      rw [hy, Nat.add_sub_cancel_left]
      nlinarith only [hroot, sq_nonneg ((x : Int) - y)]
    · rw [Nat.sub_eq_zero_of_le hge, Nat.zero_mul]
      exact Nat.zero_le _
  have hquotient : 2 * n.sqrt - x ≤ n / x :=
    (Nat.le_div_iff_mul_le hx).2 (Nat.le_trans hmean hsqrt)
  unfold newtonStep
  omega

/-- The invariant of the descent is that the estimate is not below the root. It falls as long as it
is above, so that as many steps as its value are enough. -/
theorem newtonDescent_eq_sqrt {n limit x : Nat} (hsqrt : n.sqrt ≤ x) (hlimit : x ≤ limit) :
    newtonDescent n limit x (newtonStep n x) = n.sqrt := by
  induction limit generalizing x with
  | zero =>
    unfold newtonDescent
    omega
  | succ limit ih =>
    rw [newtonDescent]
    split
    · next hlt => exact ih (sqrt_le_newtonStep n (by omega)) (by omega)
    · next hge =>
      have hle : x ≤ n / x := by
        unfold newtonStep at hge
        omega
      have hsquare : x * x ≤ n := Nat.mul_le_of_le_div x x n hle
      exact Nat.le_antisymm (Nat.le_sqrt.2 hsquare) hsqrt

theorem squareRoot_eq_sqrt (n : Nat) : squareRoot n = n.sqrt := by
  unfold squareRoot
  split
  · next hzero => rw [hzero, Nat.sqrt_zero]
  · next hpos =>
    have hfirst : (n + 1) / 2 = newtonStep n n := by
      rw [newtonStep, Nat.div_self (Nat.pos_of_ne_zero hpos)]
    rw [hfirst]
    exact newtonDescent_eq_sqrt (Nat.sqrt_le_self n) (Nat.le_refl n)

end WaterPeg
