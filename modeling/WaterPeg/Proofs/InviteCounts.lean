import Mathlib.Algebra.Order.Floor.Div
import WaterPeg.Invite

/-!
How many invites are sent for a target. The number wanted covers the target at the turnout that is
expected, unless ten times the target does not. What is sent is the number wanted, cut to a word.
-/
namespace WaterPeg.Invite

/-- An overhead of a hundred percent or more takes nothing off. -/
theorem le_ceilDiv_overhead (needed : Nat) {overhead : Nat} (h : 100 ≤ overhead) :
    needed ≤ needed * overhead ⌈/⌉ 100 := by
  have hrounded : needed * overhead ≤ 100 * (needed * overhead ⌈/⌉ 100) :=
    le_smul_ceilDiv (Nat.succ_pos 99)
  have hpadded : needed * 100 ≤ needed * overhead := Nat.mul_le_mul_left needed h
  omega

/-- The invites wanted for a target, in numbers without a bound. -/
def wanted (target turnout minTurnout overhead : UInt64) : Nat :=
  let needed := target.toNat * ppm ⌈/⌉ max turnout.toNat minTurnout.toNat
  max target.toNat (min (needed * overhead.toNat ⌈/⌉ 100) (target.toNat * 10))

/-- So many invites cover a target and are ten times as many at most, and at the turnout that is
expected they are answered as often as the target asks, unless they are ten times as many. -/
structure Covers (target turnout minTurnout : UInt64) (n : Nat) : Prop where
  target_le : target.toNat ≤ n
  le_tenfold : n ≤ 10 * target.toNat
  enough : n = 10 * target.toNat ∨
    target.toNat * 1000000 ≤ n * max turnout.toNat minTurnout.toNat

section

variable {target turnout minTurnout overhead : UInt64}

theorem rate_pos (turnout : UInt64) (hmin : 0 < minTurnout) :
    0 < max turnout.toNat minTurnout.toNat :=
  Nat.lt_of_lt_of_le (UInt64.lt_iff_toNat_lt.1 hmin) (Nat.le_max_right ..)

theorem covers_wanted (hmin : 0 < minTurnout) (hoverhead : 100 ≤ overhead) :
    Covers target turnout minTurnout (wanted target turnout minTurnout overhead) := by
  have hrate := rate_pos turnout hmin
  unfold wanted
  dsimp only
  generalize hneeded : target.toNat * ppm ⌈/⌉ max turnout.toNat minTurnout.toNat = needed
  have hpadded := le_ceilDiv_overhead needed (UInt64.le_iff_toNat_le.1 hoverhead)
  generalize needed * overhead.toNat ⌈/⌉ 100 = padded at hpadded ⊢
  refine ⟨by omega, by omega, ?_⟩
  by_cases hcapped : target.toNat * 10 ≤ padded
  · left
    omega
  · right
    calc
      target.toNat * 1000000 ≤ max turnout.toNat minTurnout.toNat * needed :=
        hneeded ▸ le_smul_ceilDiv hrate
      _ = needed * max turnout.toNat minTurnout.toNat := Nat.mul_comm ..
      _ ≤ _ := Nat.mul_le_mul_right _ (by omega)

/-! ## The words on the way -/

theorem toNat_needed (hmin : 0 < minTurnout) :
    ((UInt128.ofWord target * .ofNat ppm).ceilDiv
      (.ofWord (max (max turnout minTurnout) 1))).toNat =
        target.toNat * ppm ⌈/⌉ max turnout.toNat minTurnout.toNat := by
  have hpos := rate_pos turnout hmin
  have hrate : (UInt128.ofWord (max (max turnout minTurnout) 1)).toNat =
      max turnout.toNat minTurnout.toNat := by
    rw [UInt128.toNat_ofWord, UInt64.toNat_max, UInt64.toNat_max]
    exact Nat.max_eq_left hpos
  rw [UInt128.toNat_ceilDiv _ (by rwa [hrate]), hrate,
    UInt128.toNat_ofWord_mul _ (by decide : ppm < UInt64.size), Nat.ceilDiv_eq_add_pred_div]

/-- With no more than twice as many invites on top, the product fits 128 bits. -/
theorem toNat_padded {needed : UInt128} (hneeded : needed.toNat ≤ target.toNat * ppm)
    (hoverhead : overhead ≤ 300) :
    ((needed * .ofWord overhead).ceilDiv 100).toNat = needed.toNat * overhead.toNat ⌈/⌉ 100 := by
  have hfew : (UInt128.ofWord overhead).toNat ≤ 300 := by
    rw [UInt128.toNat_ofWord]
    exact UInt64.le_iff_toNat_le.1 hoverhead
  have hword := target.toNat_lt
  have hfits : needed.toNat * (UInt128.ofWord overhead).toNat < UInt128.size := by
    calc
      needed.toNat * (UInt128.ofWord overhead).toNat ≤ target.toNat * ppm * 300 :=
        Nat.mul_le_mul hneeded hfew
      _ < UInt128.size := by
        rw [ppm, UInt128.size, UInt64.size]
        omega
  have hhundred : (100 : UInt128).toNat = 100 := by decide
  rw [UInt128.toNat_ceilDiv _ (by decide), UInt128.toNat_mul_of_lt hfits, UInt128.toNat_ofWord,
    hhundred, Nat.ceilDiv_eq_add_pred_div]

theorem countFor_eq_ofNat_wanted (htarget : 0 < target) (hmin : 0 < minTurnout)
    (hoverhead : overhead ≤ 300) :
    countFor target turnout minTurnout overhead =
      UInt64.ofNat (wanted target turnout minTurnout overhead) := by
  have hne : target ≠ 0 := by
    rintro rfl
    exact absurd htarget (by decide)
  have hpos := rate_pos turnout hmin
  have hneeded := @toNat_needed target turnout minTurnout hmin
  have hle : target.toNat * ppm ⌈/⌉ max turnout.toNat minTurnout.toNat ≤ target.toNat * ppm :=
    (ceilDiv_le_iff_le_smul hpos).2 (Nat.le_mul_of_pos_left _ hpos)
  have hpadded := toNat_padded (hneeded ▸ hle) hoverhead
  have hmost : (UInt128.ofWord target * 10).toNat = target.toNat * 10 :=
    UInt128.toNat_ofWord_mul target (by decide : 10 < UInt64.size)
  unfold countFor wanted
  rw [if_neg hne]
  dsimp only
  rw [hpadded, hneeded, hmost]

/-- The invites that are sent are those that cover the target, cut to a word; where ten times the
target is a word, nothing is cut off. -/
theorem countFor_covers (htarget : 0 < target) (hmin : 0 < minTurnout)
    (hoverhead : 100 ≤ overhead) (hfew : overhead ≤ 300) :
    Covers target turnout minTurnout (wanted target turnout minTurnout overhead) ∧
      (countFor target turnout minTurnout overhead).toNat =
        wanted target turnout minTurnout overhead % UInt64.size ∧
      (wanted target turnout minTurnout overhead < UInt64.size →
        Covers target turnout minTurnout (countFor target turnout minTurnout overhead).toNat) ∧
      (10 * target.toNat < UInt64.size →
        wanted target turnout minTurnout overhead < UInt64.size) := by
  have hcovers : Covers target turnout minTurnout (wanted target turnout minTurnout overhead) :=
    covers_wanted hmin hoverhead
  have htoNat : (countFor target turnout minTurnout overhead).toNat =
      wanted target turnout minTurnout overhead % UInt64.size := by
    rw [countFor_eq_ofNat_wanted htarget hmin hfew]
    exact UInt64.toNat_ofNat' ..
  refine ⟨hcovers, htoNat, fun hfits => ?_, fun hword => ?_⟩
  · rw [htoNat, Nat.mod_eq_of_lt hfits]
    exact hcovers
  · exact Nat.lt_of_le_of_lt hcovers.le_tenfold hword

/-- With everyone answering, a fifth of the largest target is left of the invites that it asks for. -/
example : wanted 18446744073709551615 1000000 100000 120 = 22136092888451461938 ∧
    countFor 18446744073709551615 1000000 100000 120 = 3689348814741910322 := by decide

theorem countFor_covers_hundred :
    countFor 100 500000 100000 120 = 240 ∧ Covers 100 500000 100000 240 := by
  have hcount : countFor 100 500000 100000 120 = 240 := by decide
  have hwanted : wanted 100 500000 100000 120 < UInt64.size := by decide
  have hsent := (@countFor_covers 100 500000 100000 120 (by decide) (by decide) (by decide)
    (by decide)).2.2.1 hwanted
  rw [hcount] at hsent
  exact ⟨hcount, hsent⟩

end

end WaterPeg.Invite
