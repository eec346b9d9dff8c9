import Mathlib.Data.Set.Card
import Mathlib.Order.Interval.Set.Nat
import WaterPeg.Random

/-!
A number drawn below a bound has no bias. The zone of a bound is the largest multiple of it among the
words, so that each residue has as many words in the zone as the others, and at least half of
all words lie in it. A draw takes the first word of the stream in the zone and nothing behind it.
-/
namespace WaterPeg.RandomStream

/-! ## The words to come -/

def after (s : RandomStream) (n : Nat) : RandomStream := (s.words n).2

/-- Word `k` of those to come, the next one being word 0. -/
def word (s : RandomStream) (k : Nat) : UInt64 := (s.after k).next.1

theorem after_succ (s : RandomStream) (n : Nat) : s.after (n + 1) = s.next.2.after n := rfl

theorem word_succ (s : RandomStream) (k : Nat) : s.word (k + 1) = s.next.2.word k := rfl

/-- The words before the first one in the zone are passed over, and those behind it are left. -/
theorem firstInZone_eq {bound : UInt64} {limit k : Nat} {s : RandomStream} (hk : k < limit)
    (hzone : s.word k < zone bound) (hbefore : ∀ j < k, zone bound ≤ s.word j) :
    firstInZone bound limit s = (s.word k % bound, s.after (k + 1)) := by
  induction limit generalizing k s with
  | zero => exact absurd hk (Nat.not_lt_zero k)
  | succ limit ih =>
    unfold firstInZone
    cases k with
    | zero => exact if_pos hzone
    | succ k =>
      have hfirst : ¬ s.word 0 < zone bound := UInt64.not_lt.2 (hbefore 0 (Nat.succ_pos k))
      have hrest : ∀ j < k, zone bound ≤ s.next.2.word j := fun j hj =>
        hbefore (j + 1) (Nat.succ_lt_succ hj)
      rw [word_succ] at hzone ⊢
      rw [after_succ]
      exact (if_neg hfirst).trans (ih (Nat.lt_of_succ_lt_succ hk) hzone hrest)

/-! ## The zone -/

theorem toNat_zone (bound : UInt64) :
    (zone bound).toNat = bound.toNat * ((UInt64.size - 1) / bound.toNat) := by
  have hmax : (0xFFFFFFFFFFFFFFFF : UInt64).toNat = UInt64.size - 1 := rfl
  have hle : 0xFFFFFFFFFFFFFFFF % bound ≤ 0xFFFFFFFFFFFFFFFF := by
    rw [UInt64.le_iff_toNat_le, UInt64.toNat_mod]
    exact Nat.mod_le ..
  rw [zone, UInt64.toNat_sub_of_le _ _ hle, UInt64.toNat_mod, hmax, Nat.mul_div_self_eq_mod_sub_self]

theorem dvd_zone (bound : UInt64) : bound.toNat ∣ (zone bound).toNat := ⟨_, toNat_zone bound⟩

/-- At least half of all words lie in the zone. -/
theorem two_pow_le_zone {bound : UInt64} (hbound : 0 < bound) : 2 ^ 63 ≤ (zone bound).toNat := by
  have hpos : 0 < bound.toNat := UInt64.lt_iff_toNat_lt.1 hbound
  have hsize : UInt64.size = 2 ^ 63 + 2 ^ 63 := rfl
  have hquotient : 0 < (UInt64.size - 1) / bound.toNat :=
    Nat.div_pos (Nat.le_sub_one_of_lt bound.toNat_lt) hpos
  have hbelow : UInt64.size - 1 < bound.toNat * ((UInt64.size - 1) / bound.toNat + 1) :=
    Nat.lt_mul_div_succ _ hpos
  have hatLeast : bound.toNat * 1 ≤ bound.toNat * ((UInt64.size - 1) / bound.toNat) :=
    Nat.mul_le_mul_left _ hquotient
  rw [Nat.mul_succ] at hbelow
  rw [toNat_zone]
  omega

section Multiples

variable {bound r : UInt64} (hr : r < bound) {i : Nat} (hi : i < (zone bound).toNat / bound.toNat)

include hr hi

theorem mul_add_lt_zone : bound.toNat * i + r.toNat < (zone bound).toNat := by
  have hmultiple : (zone bound).toNat = bound.toNat * ((zone bound).toNat / bound.toNat) :=
    (Nat.mul_div_cancel' (dvd_zone bound)).symm
  have hnext : bound.toNat * (i + 1) ≤ bound.toNat * ((zone bound).toNat / bound.toNat) :=
    Nat.mul_le_mul_left _ hi
  have hlt : r.toNat < bound.toNat := UInt64.lt_iff_toNat_lt.1 hr
  rw [Nat.mul_succ] at hnext
  omega

theorem toNat_ofNat_mul_add :
    (UInt64.ofNat (bound.toNat * i + r.toNat)).toNat = bound.toNat * i + r.toNat :=
  UInt64.toNat_ofNat_of_lt' (Nat.lt_trans (mul_add_lt_zone hr hi) (zone bound).toNat_lt_size)

end Multiples

/-- The words in the zone with a residue are the residue plus the multiples of the bound. -/
theorem setOf_mod_eq {bound r : UInt64} (hr : r < bound) :
    {w : UInt64 | w < zone bound ∧ w % bound = r} =
      (fun i => UInt64.ofNat (bound.toNat * i + r.toNat)) ''
        Set.Iio ((zone bound).toNat / bound.toNat) := by
  ext w
  constructor
  · rintro ⟨hzone, rfl⟩
    refine ⟨w.toNat / bound.toNat, ?_, ?_⟩
    · exact Nat.div_lt_div_of_lt_of_dvd (dvd_zone bound) (UInt64.lt_iff_toNat_lt.1 hzone)
    · dsimp only
      rw [UInt64.toNat_mod, Nat.div_add_mod, UInt64.ofNat_toNat]
  · rintro ⟨i, hi, rfl⟩
    have hvalue := toNat_ofNat_mul_add hr hi
    refine ⟨?_, ?_⟩
    · rw [UInt64.lt_iff_toNat_lt, hvalue]
      exact mul_add_lt_zone hr hi
    · rw [← UInt64.toNat_inj, UInt64.toNat_mod, hvalue, Nat.mul_add_mod,
        Nat.mod_eq_of_lt (UInt64.lt_iff_toNat_lt.1 hr)]

/-- Each residue has as many words in the zone as the bound goes into it. -/
theorem ncard_mod_eq {bound r : UInt64} (hr : r < bound) :
    {w : UInt64 | w < zone bound ∧ w % bound = r}.ncard = (zone bound).toNat / bound.toNat := by
  have hpos : 0 < bound.toNat := Nat.zero_lt_of_lt (UInt64.lt_iff_toNat_lt.1 hr)
  have hinj : Set.InjOn (fun i => UInt64.ofNat (bound.toNat * i + r.toNat))
      (Set.Iio ((zone bound).toNat / bound.toNat)) := by
    intro i hi j hj h
    have hvalue := congrArg UInt64.toNat h
    rw [toNat_ofNat_mul_add hr hi, toNat_ofNat_mul_add hr hj] at hvalue
    exact Nat.eq_of_mul_eq_mul_left hpos (Nat.add_right_cancel hvalue)
  rw [setOf_mod_eq hr, hinj.ncard_image, Set.ncard_eq_toFinset_card']
  simp

/-! ## Drawing -/

/-- A draw below a bound has no bias: the zone is a multiple of the bound and at least half of all
words, each residue has the same number of words in it, and a stream that still has a word in the zone
gives the first of them, reduced by the bound, and goes on right behind it. -/
theorem below_unbiased {bound : UInt64} (hbound : 1 ≤ bound) :
    bound.toNat ∣ (zone bound).toNat ∧ 2 ^ 63 ≤ (zone bound).toNat ∧
      (∀ r < bound, {w : UInt64 | w < zone bound ∧ w % bound = r}.ncard =
        (zone bound).toNat / bound.toNat) ∧
      ∀ (s : RandomStream) (k : Nat), k < s.wordsLeft → s.word k < zone bound →
        (∀ j < k, zone bound ≤ s.word j) → s.below bound = (s.word k % bound, s.after (k + 1)) := by
  have hpos : 0 < bound := UInt64.lt_iff_toNat_lt.2 (UInt64.le_iff_toNat_le.1 hbound)
  refine ⟨dvd_zone bound, two_pow_le_zone hpos, fun r hr => ncard_mod_eq hr, ?_⟩
  intro s k hk hzone hbefore
  rw [below, if_neg (UInt64.pos_iff_ne_zero.1 hpos)]
  exact firstInZone_eq hk hzone hbefore

/-- A stream in the middle of a block: the largest word, which lies in no zone, and then 27. -/
def fullWordFirst : RandomStream where
  seed := .zero
  counter := 1
  block := ⟨List.replicate 8 255 ++ 27 :: List.replicate 23 0, rfl⟩
  offset := 0

theorem below_unbiased_fullWordFirst :
    {w : UInt64 | w < zone 10 ∧ w % 10 = 3}.ncard = 1844674407370955161 ∧
      fullWordFirst.below 10 = (7, fullWordFirst.after 2) := by
  have hpos : (1 : UInt64) ≤ 10 := by decide
  obtain ⟨-, -, hcount, hfirst⟩ := below_unbiased hpos
  refine ⟨hcount 3 (by decide), hfirst fullWordFirst 1 (by decide) (by decide) ?_⟩
  intro j hj
  obtain rfl := Nat.lt_one_iff.1 hj
  decide

end WaterPeg.RandomStream
