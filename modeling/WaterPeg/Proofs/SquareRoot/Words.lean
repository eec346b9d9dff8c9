import WaterPeg.Proofs.Moments.Exact

/-!
The square root in words of 128 bits. Newton's loop ends from any start that is not below the root,
and all that it computes for a number of 128 bits fits 128 bits again. The root then fits 64 bits, and
so does the standard deviation, which is one.
-/
namespace WaterPeg

/-- The passes of Newton's loop for the root of `n`, at an estimate and the next one: what they
compute, one after the other, and the estimate at the end. A pass divides by the next estimate. -/
inductive NewtonLoop (n : Nat) : Nat → Nat → List Nat → Nat → Prop
  | stop {x y : Nat} (hle : x ≤ y) : NewtonLoop n x y [] x
  | pass {x y root : Nat} {computed : List Nat} (hlt : y < x) (hpos : 0 < y)
    (hrest : NewtonLoop n y (newtonStep n y) computed root) :
    NewtonLoop n x y (n / y :: (y + n / y) :: newtonStep n y :: computed) root

/-- The sum of two factors is at most their product and one. -/
theorem add_div_le_succ {n x : Nat} (hpos : 0 < x) (hle : x ≤ n) : x + n / x ≤ n + 1 := by
  have hquotient : 0 < n / x := Nat.div_pos hle hpos
  have hproduct : x * (n / x) ≤ n := Nat.mul_div_le n x
  obtain ⟨a, rfl⟩ := Nat.exists_eq_add_of_le' hpos
  obtain ⟨b, hb⟩ := Nat.exists_eq_add_of_le' hquotient
  rw [hb] at hproduct ⊢
  nlinarith only [hproduct]

/-- What a pass computes from an estimate between the root and half the number is at most the number,
small numbers apart. -/
theorem add_div_le_max {n y : Nat} (hpos : 0 < y) (hroot : n.sqrt ≤ y) (hhalf : y ≤ (n + 1) / 2) :
    y + n / y ≤ max n 4 := by
  rcases Nat.eq_or_lt_of_le hpos with hone | htwo
  · subst hone
    have hsmall : n < 2 * 2 := Nat.sqrt_lt.1 (Nat.lt_succ_of_le hroot)
    rw [Nat.div_one]
    omega
  · have hquotient : n / y ≤ n / 2 := Nat.div_le_div_left htwo Nat.two_pos
    omega

/-- The loop does what the descent does with as many steps as its first estimate. -/
theorem newtonLoop_newtonDescent {n limit x : Nat} (hn : 0 < n) (hroot : n.sqrt ≤ x) (hx : x ≤ n)
    (hlimit : x ≤ limit) :
    ∃ computed, NewtonLoop n x (newtonStep n x) computed (newtonDescent n limit x (newtonStep n x)) ∧
      ∀ v ∈ computed, v ≤ max n 4 := by
  induction limit generalizing x with
  | zero =>
    have hpos : 0 < n.sqrt := Nat.sqrt_pos.2 hn
    omega
  | succ limit ih =>
    have hpos : 0 < x := Nat.lt_of_lt_of_le (Nat.sqrt_pos.2 hn) hroot
    rw [newtonDescent]
    split
    · next hlt =>
      have hstep : n.sqrt ≤ newtonStep n x := sqrt_le_newtonStep n hpos
      have hnext : 0 < newtonStep n x := Nat.lt_of_lt_of_le (Nat.sqrt_pos.2 hn) hstep
      have hhalf : newtonStep n x ≤ (n + 1) / 2 := Nat.div_le_div_right (add_div_le_succ hpos hx)
      have hsum := add_div_le_max hnext hstep hhalf
      have hnewer : newtonStep n (newtonStep n x) ≤ newtonStep n x + n / newtonStep n x :=
        Nat.div_le_self ..
      obtain ⟨computed, hloop, hcomputed⟩ := ih hstep (by omega) (by omega)
      refine ⟨_, .pass hlt hnext hloop, ?_⟩
      intro v hv
      rcases List.mem_cons.1 hv with rfl | hv
      · omega
      rcases List.mem_cons.1 hv with rfl | hv
      · exact hsum
      rcases List.mem_cons.1 hv with rfl | hv
      · omega
      · exact hcomputed v hv
    · next hge => exact ⟨[], .stop (Nat.le_of_not_lt hge), by simp⟩

/-- The half of `n` rounded up is where the loop begins; for zero it ends there. -/
theorem exists_newtonLoop (n : Nat) :
    ∃ computed, NewtonLoop n n (n / 2 + n % 2) computed (squareRoot n) ∧
      ∀ v ∈ (n / 2 + n % 2) :: computed, v ≤ max n 4 := by
  rcases Nat.eq_zero_or_pos n with rfl | hn
  · exact ⟨[], .stop (Nat.le_refl 0), by simp⟩
  · have hfirst : n / 2 + n % 2 = newtonStep n n := by
      rw [newtonStep, Nat.div_self hn]
      omega
    have hhalf : (n + 1) / 2 = newtonStep n n := by rw [newtonStep, Nat.div_self hn]
    obtain ⟨computed, hloop, hcomputed⟩ :=
      newtonLoop_newtonDescent hn (Nat.sqrt_le_self n) (Nat.le_refl n) (Nat.le_refl n)
    refine ⟨computed, ?_, ?_⟩
    · rw [squareRoot, if_neg (Nat.ne_of_gt hn), hhalf, hfirst]
      exact hloop
    · intro v hv
      rcases List.mem_cons.1 hv with rfl | hv
      · omega
      · exact hcomputed v hv

/-- The root of a number of 128 bits is the floor of its real root. Newton's loop, begun at the number
and its half, ends with it, divides by no zero on the way and computes nothing that 128 bits do not
hold. As the root fits 64 bits, no deviation is cut. -/
theorem squareRoot_of_words (n : UInt128) :
    (squareRoot n.toNat * squareRoot n.toNat ≤ n.toNat ∧
        n.toNat < (squareRoot n.toNat + 1) * (squareRoot n.toNat + 1)) ∧
      (∃ computed, NewtonLoop n.toNat n.toNat (n.toNat / 2 + n.toNat % 2) computed
          (squareRoot n.toNat) ∧
        ∀ v ∈ (n.toNat / 2 + n.toNat % 2) :: computed, v < UInt128.size) ∧
      ∀ m : Moments, m.stdDev.toNat =
        if m.count < 2 then 0 else squareRoot (m.squares.toNat / (m.count - 1)) := by
  refine ⟨?_, ?_, ?_⟩
  · rw [squareRoot_eq_sqrt]
    exact ⟨Nat.sqrt_le n.toNat, Nat.lt_succ_sqrt n.toNat⟩
  · obtain ⟨computed, hloop, hcomputed⟩ := exists_newtonLoop n.toNat
    have hword : max n.toNat 4 < UInt128.size := Nat.max_lt.2 ⟨n.toNat_lt, by decide⟩
    exact ⟨computed, hloop, fun v hv => Nat.lt_of_le_of_lt (hcomputed v hv) hword⟩
  · intro m
    split
    · next hone => rw [Moments.stdDev, if_pos hone, UInt64.toNat_zero]
    · next htwo => rw [Moments.toNat_stdDev (Nat.le_of_not_lt htwo), squareRoot_eq_sqrt]

end WaterPeg
