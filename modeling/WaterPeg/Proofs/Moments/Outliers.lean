import WaterPeg.Config
import WaterPeg.Proofs.Moments.Exact

/-!
How few samples are outliers. Chebyshev's inequality bounds their number, whatever the samples are:
each outlier is far from the mean, and the squared distances add up to no more than the spread.
-/
namespace WaterPeg

variable {values : List UInt64} {m : Moments}

theorem withoutOutliers_eq_filter (h : Moments.of? values = some m) (k : UInt64) :
    withoutOutliers values k = values.filter fun v => m.within v k := by
  unfold withoutOutliers
  rw [h]

theorem sublist_withoutOutliers (values : List UInt64) (k : UInt64) :
    (withoutOutliers values k).Sublist values := by
  unfold withoutOutliers
  split
  · exact List.filter_sublist
  · exact List.nil_sublist _

def outlierCount (values : List UInt64) (k : UInt64) : Nat :=
  values.length - (withoutOutliers values k).length

theorem outlierCount_eq_length_filter (h : Moments.of? values = some m) (k : UInt64) :
    outlierCount values k = (values.filter fun v => !m.within v k).length := by
  have hlength := List.length_eq_length_filter_add (l := values) fun v => m.within v k
  unfold outlierCount
  rw [withoutOutliers_eq_filter h]
  omega

/-- The outliers have more than their share of the spread. A clamped sum of squares only shrinks the
left side. -/
theorem Moments.Describes.outliers_mul_le (h : m.Describes values) {k : UInt64}
    {outliers : List UInt64} (hsub : outliers.Sublist values)
    (hout : ∀ v ∈ outliers, ¬ m.within v k) :
    outliers.length * (k.toNat * k.toNat * m.squares.toNat + 1) ≤
      spread values * ((values.length - 1) * 1000000) := by
  have hfar : ∀ v ∈ outliers, k.toNat * k.toNat * m.squares.toNat + 1 ≤
      squaredDistance m.mean v * ((values.length - 1) * 1000000) := by
    intro v hv
    obtain ⟨-, -, hlt⟩ := of_not_within (hout v hv)
    rw [h.count_eq, Nat.mul_assoc (squaredDistance m.mean v)] at hlt
    exact hlt
  have hshare : (outliers.map (squaredDistance m.mean)).sum ≤ spread values :=
    sum_squaredDistance h.toNat_mean ▸ (hsub.map _).sum_le_sum fun _ _ => Nat.zero_le _
  calc
    outliers.length * (k.toNat * k.toNat * m.squares.toNat + 1) ≤
        (outliers.map fun v => squaredDistance m.mean v * ((values.length - 1) * 1000000)).sum :=
        length_mul_le_sum_map hfar
    _ = (outliers.map (squaredDistance m.mean)).sum * ((values.length - 1) * 1000000) :=
        List.sum_map_mul_right ..
    _ ≤ spread values * ((values.length - 1) * 1000000) :=
        Nat.mul_le_mul_right _ hshare

/-- Chebyshev's inequality, strict because the deviation is that of a sample. -/
theorem outlierCount_mul_lt (hvalues : values ≠ []) (k : UInt64) :
    outlierCount values k = 0 ∨
      outlierCount values k * (k.toNat * k.toNat) < (values.length - 1) * 1000000 := by
  obtain ⟨m, hm⟩ := Moments.exists_of?_eq_some hvalues
  have hdescribes := Moments.describes_of_of? hm
  rw [outlierCount_eq_length_filter hm]
  generalize hoeq : values.filter (fun v => !m.within v k) = outliers
  have hsub : outliers.Sublist values := hoeq ▸ List.filter_sublist
  have hout : ∀ v ∈ outliers, ¬ m.within v k := by
    intro v hv
    rw [← hoeq, List.mem_filter] at hv
    simpa using hv.2
  have hshare := hdescribes.outliers_mul_le hsub hout
  cases outliers with
  | nil => exact .inl rfl
  | cons v outliers =>
    right
    obtain ⟨hcount, hclamp, -⟩ := Moments.of_not_within (hout v List.mem_cons_self)
    rw [hdescribes.count_eq] at hcount
    have hpos : 0 < (v :: outliers).length := Nat.succ_pos _
    generalize (v :: outliers).length = r at hshare hpos ⊢
    by_cases hexact : spread values ≤ UInt128.size - 1
    · rw [hdescribes.toNat_squares, Nat.min_eq_left hexact] at hshare
      refine Nat.lt_of_mul_lt_mul_left (a := spread values) ?_
      calc
        spread values * (r * (k.toNat * k.toNat)) = r * (k.toNat * k.toNat * spread values) := by
          ring
        _ < r * (k.toNat * k.toNat * spread values + 1) := Nat.mul_lt_mul_of_pos_left (by omega) hpos
        _ ≤ spread values * ((values.length - 1) * 1000000) := hshare
    · -- The clamped sum is the largest number there is, so that no other width leaves anything out.
      rw [hdescribes.toNat_squares, Nat.min_eq_right (Nat.le_of_not_le hexact)] at hclamp
      have hzero : k.toNat * k.toNat = 0 := by
        by_contra hne
        have hle := Nat.le_mul_of_pos_left (UInt128.size - 1) (Nat.pos_of_ne_zero hne)
        omega
      rw [hzero, Nat.mul_zero]
      omega

theorem length_withoutOutliers (values : List UInt64) (k : UInt64) :
    (withoutOutliers values k).length = values.length - outlierCount values k := by
  have hle := (sublist_withoutOutliers values k).length_le
  unfold outlierCount
  omega

/-- At the default width, fewer than one sample in four is left out. -/
theorem outlierCount_averagingWidth (hvalues : values ≠ []) :
    outlierCount values ({} : MeasurementParams).averagingWidth = 0 ∨
      4 * outlierCount values ({} : MeasurementParams).averagingWidth < values.length - 1 := by
  have hcount := outlierCount_mul_lt hvalues ({} : MeasurementParams).averagingWidth
  have hwidth : ({} : MeasurementParams).averagingWidth.toNat *
      ({} : MeasurementParams).averagingWidth.toNat = 4000000 := rfl
  rw [hwidth] at hcount
  omega

theorem withoutOutliers_ne_nil (hvalues : values ≠ []) {k : UInt64} (hk : 1000 ≤ k) :
    withoutOutliers values k ≠ [] := by
  have hcount := outlierCount_mul_lt hvalues k
  have hpos : 0 < values.length := List.length_pos_iff.2 hvalues
  have hwidth : 1000 * 1000 ≤ k.toNat * k.toNat :=
    Nat.mul_self_le_mul_self (UInt64.le_iff_toNat_le.1 hk)
  intro hnil
  have hall : outlierCount values k = values.length := by
    rw [outlierCount, hnil, List.length_nil, Nat.sub_zero]
  have hmul := Nat.mul_le_mul_left values.length hwidth
  rw [hall] at hcount
  omega

/-! ## Means without outliers -/

theorem gaussianMean?_eq (h : Moments.of? values = some m) (k : UInt64) :
    gaussianMean? values k =
      some (((Moments.of? (withoutOutliers values k)).map Moments.mean).getD m.mean) := by
  unfold gaussianMean?
  rw [h]
  cases Moments.of? (withoutOutliers values k) with
  | none => rfl
  | some kept => rfl

theorem value_summary_eq (values : List UInt64) (k minSignificant : UInt64) :
    (Summary.of? values k minSignificant).map Summary.value = gaussianMean? values k := by
  cases h : Moments.of? values with
  | none =>
    unfold Summary.of? gaussianMean?
    rw [h]
    rfl
  | some m =>
    rw [gaussianMean?_eq h]
    unfold Summary.of?
    rw [h]
    rfl

/-- Leaving out samples does not take the mean beyond them. -/
theorem mem_of_gaussianMean? {k mean lo hi : UInt64} (h : gaussianMean? values k = some mean)
    (hvalues : ∀ v ∈ values, lo ≤ v ∧ v ≤ hi) : lo ≤ mean ∧ mean ≤ hi := by
  cases hm : Moments.of? values with
  | none =>
    unfold gaussianMean? at h
    rw [hm] at h
    exact nomatch h
  | some m =>
    rw [gaussianMean?_eq hm] at h
    obtain rfl := Option.some.inj h
    cases hkept : Moments.of? (withoutOutliers values k) with
    | none => exact (Moments.describes_of_of? hm).mean_mem hvalues
    | some kept =>
      refine (Moments.describes_of_of? hkept).mean_mem fun v hv => hvalues v ?_
      exact (sublist_withoutOutliers values k).subset hv

/-- Fewer samples are left out than Chebyshev's inequality allows. At the default width more than
three quarters stay, and five samples or fewer all do; from a width of one deviation on some stay, so
that the average never has to be that of all samples. It is between the smallest and the largest
sample, and a summary gives the same. -/
theorem withoutOutliers_chebyshev (hvalues : values ≠ []) (k : UInt64) :
    (withoutOutliers values k).Sublist values ∧
      (outlierCount values k = 0 ∨
        outlierCount values k * k.toNat ^ 2 < (values.length - 1) * 1000000) ∧
      (k = ({} : MeasurementParams).averagingWidth →
        3 * values.length < 4 * (withoutOutliers values k).length ∧
          (values.length ≤ 5 → withoutOutliers values k = values)) ∧
      (1000 ≤ k → withoutOutliers values k ≠ [] ∧
        gaussianMean? values k = (Moments.of? (withoutOutliers values k)).map Moments.mean) ∧
      ∃ mean, gaussianMean? values k = some mean ∧
        (∀ minSignificant, (Summary.of? values k minSignificant).map Summary.value = some mean) ∧
        ∀ smallest largest, (∀ v ∈ values, smallest ≤ v ∧ v ≤ largest) →
          smallest ≤ mean ∧ mean ≤ largest := by
  have hsub := sublist_withoutOutliers values k
  obtain ⟨m, hm⟩ := Moments.exists_of?_eq_some hvalues
  refine ⟨hsub, ?_, ?_, fun hwide => ?_, ?_⟩
  · rw [Nat.pow_two]
    exact outlierCount_mul_lt hvalues k
  · rintro rfl
    have hfewer := outlierCount_averagingWidth hvalues
    have hrest := length_withoutOutliers values ({} : MeasurementParams).averagingWidth
    have hpos : 0 < values.length := List.length_pos_iff.2 hvalues
    refine ⟨by omega, fun hfive => hsub.eq_of_length ?_⟩
    omega
  · have hne := withoutOutliers_ne_nil hvalues hwide
    obtain ⟨kept, hkept⟩ := Moments.exists_of?_eq_some hne
    refine ⟨hne, ?_⟩
    rw [gaussianMean?_eq hm, hkept]
    rfl
  · have hmean := gaussianMean?_eq hm k
    refine ⟨_, hmean, fun minSignificant => ?_, fun _ _ => mem_of_gaussianMean? hmean⟩
    rw [value_summary_eq, hmean]

/-- What six shops ask for water. Five of them agree. -/
def sixShops : List UInt64 := [1000000, 1010000, 990000, 1000000, 1020000, 5000000]

theorem chebyshev_of_sixShops :
    outlierCount sixShops 2000 = 1 ∧ outlierCount sixShops 2000 * 2000 ^ 2 < 5 * 1000000 ∧
      3 * 6 < 4 * (withoutOutliers sixShops 2000).length ∧ withoutOutliers sixShops 2000 ≠ [] ∧
      gaussianMean? sixShops 2000 = some 1004000 ∧
      (990000 : UInt64) ≤ 1004000 ∧ (1004000 : UInt64) ≤ 5000000 := by
  have hone : outlierCount sixShops 2000 = 1 := by decide +kernel
  have haverage : gaussianMean? sixShops 2000 = some 1004000 := by decide +kernel
  have hne : sixShops ≠ [] := List.cons_ne_nil _ _
  obtain ⟨-, hcount, hdefault, hwide, mean, hmean, -, hbetween⟩ :=
    withoutOutliers_chebyshev hne 2000
  rw [hone] at hcount ⊢
  obtain rfl := Option.some.inj (hmean.symm.trans haverage)
  have hbounds : ∀ v ∈ sixShops, (990000 : UInt64) ≤ v ∧ v ≤ 5000000 := by
    simp [sixShops]
  exact ⟨rfl, hcount.resolve_left Nat.one_ne_zero, (hdefault rfl).1, (hwide (by decide)).1, hmean,
    hbetween _ _ hbounds⟩

end WaterPeg
