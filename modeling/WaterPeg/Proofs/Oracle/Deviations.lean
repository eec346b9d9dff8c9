import WaterPeg.Oracle.Averages
import WaterPeg.Proofs.Moments.Outliers
import WaterPeg.Proofs.Oracle.WellFormed
import WaterPeg.Stability.Standing

/-!
How far a measured rate is from the theoretical one, in parts per million of the theoretical one.
Where an oracle cuts the distance off to a word, the ratio of a standing is clamped to the largest
word. The two part where the distance is no word, which takes a measured rate above the theoretical
one, and a theoretical one below a unit.
-/
namespace WaterPeg

def exactDeviation (measured reference : UInt64) : Nat :=
  absDiff measured.toNat reference.toNat * ppm / reference.toNat

section

variable {measured reference : UInt64}

theorem toNat_deviation (h : 0 < reference) :
    (deviation measured reference).toNat = exactDeviation measured reference % UInt64.size := by
  have hne : reference ≠ 0 := UInt64.pos_iff_ne_zero.1 h
  unfold deviation
  rw [if_neg hne]
  exact UInt64.toNat_ofNat' ..

theorem Stability.toNat_ratio (h : 0 < reference) :
    (ratio reference measured).toNat =
      min (exactDeviation measured reference) (UInt64.size - 1) := by
  have hne : reference ≠ 0 := UInt64.pos_iff_ne_zero.1 h
  have hsymm : absDiff reference.toNat measured.toNat = absDiff measured.toNat reference.toNat :=
    Nat.add_comm ..
  unfold ratio
  rw [if_neg hne, hsymm]
  change (UInt64.ofNatClamp (exactDeviation measured reference)).toNat = _
  rcases Nat.lt_or_ge (exactDeviation measured reference) UInt64.size with hword | hlarge
  · rw [UInt64.toNat_ofNatClamp_of_lt hword, Nat.min_eq_left (Nat.le_sub_one_of_lt hword)]
  · rw [UInt64.toNat_ofNatClamp_of_le hlarge,
      Nat.min_eq_right (Nat.le_trans (Nat.sub_le _ _) hlarge)]

/-- No value below the reference is further off than the whole of it. -/
theorem exactDeviation_le_of_le (h : measured ≤ reference) :
    exactDeviation measured reference ≤ ppm := by
  have hle := UInt64.le_iff_toNat_le.1 h
  have hdistance : absDiff measured.toNat reference.toNat ≤ reference.toNat := by
    unfold absDiff
    omega
  exact Nat.div_le_of_le_mul (Nat.mul_le_mul_right ppm hdistance)

/-- From a reference of one unit on, the parts are no more than the micro units between. -/
theorem exactDeviation_le_absDiff (h : 1000000 ≤ reference) :
    exactDeviation measured reference ≤ absDiff measured.toNat reference.toNat := by
  refine Nat.div_le_of_le_mul ?_
  rw [Nat.mul_comm]
  exact Nat.mul_le_mul_right _ (UInt64.le_iff_toNat_le.1 h)

theorem exactDeviation_lt_size (h : measured ≤ reference ∨ 1000000 ≤ reference) :
    exactDeviation measured reference < UInt64.size := by
  rcases h with h | h
  · exact Nat.lt_of_le_of_lt (exactDeviation_le_of_le h) (by decide)
  · have hmeasured := measured.toNat_lt_size
    have hreference := reference.toNat_lt_size
    have hdistance : absDiff measured.toNat reference.toNat < UInt64.size := by
      unfold absDiff
      omega
    exact Nat.lt_of_le_of_lt (exactDeviation_le_absDiff h) hdistance

theorem exactDeviation_mono {near far : UInt64}
    (h : absDiff near.toNat reference.toNat ≤ absDiff far.toNat reference.toNat) :
    exactDeviation near reference ≤ exactDeviation far reference :=
  Nat.div_le_div_right (Nat.mul_le_mul_right ppm h)

end

/-- A gauge reads the distance from a reference modulo the words. It shows the ratio of a standing
exactly where the distance is a word, or looks like the largest one; so it does for all values below
the reference, and for all values whatever if the reference is a unit or more. As long as the
further value is read in full, the nearer one does not read as more. -/
structure Gauges (reference : UInt64) (gauge : UInt64 → UInt64) : Prop where
  toNat_eq : ∀ m, (gauge m).toNat = exactDeviation m reference % UInt64.size
  toNat_ratio : ∀ m, (Stability.ratio reference m).toNat =
    min (exactDeviation m reference) (UInt64.size - 1)
  eq_ratio_iff : ∀ m, gauge m = Stability.ratio reference m ↔
    exactDeviation m reference < UInt64.size ∨
      exactDeviation m reference % UInt64.size = UInt64.size - 1
  fits : ∀ m, m ≤ reference ∨ 1000000 ≤ reference → exactDeviation m reference < UInt64.size
  mono : ∀ near far, absDiff near.toNat reference.toNat ≤ absDiff far.toNat reference.toNat →
    exactDeviation far reference < UInt64.size → gauge near ≤ gauge far

theorem gauges_deviation {reference : UInt64} (h : 0 < reference) :
    Gauges reference (deviation · reference) where
  toNat_eq _ := toNat_deviation h
  toNat_ratio _ := Stability.toNat_ratio h
  eq_ratio_iff m := by
    rw [← UInt64.toNat_inj, toNat_deviation h, Stability.toNat_ratio h]
    rcases Nat.lt_or_ge (exactDeviation m reference) UInt64.size with hword | hlarge
    · rw [Nat.mod_eq_of_lt hword, Nat.min_eq_left (Nat.le_sub_one_of_lt hword)]
      exact iff_of_true rfl (.inl hword)
    · rw [Nat.min_eq_right (Nat.le_trans (Nat.sub_le _ _) hlarge)]
      exact (or_iff_right (Nat.not_lt.2 hlarge)).symm
  fits _ := exactDeviation_lt_size
  mono near far hnear hfar := by
    have hle := exactDeviation_mono hnear
    rw [UInt64.le_iff_toNat_le, toNat_deviation h, toNat_deviation h, Nat.mod_eq_of_lt hfar,
      Nat.mod_eq_of_lt (Nat.lt_of_le_of_lt hle hfar)]
    exact hle

/-! ## The theoretical rate -/

theorem WaterPrice.price_pos_of_perLiter {p : MeasurementParams} {offer : WaterOffer}
    {w : WaterPrice} (h : p.perLiter offer = .ok w) : 1 ≤ w.price := by
  obtain ⟨-, -, -, price, -, hvalue, rfl⟩ := p.perLiter_of_ok h
  exact UInt64.le_iff_toNat_le.2 (p.le_of_checkValue hvalue).1

namespace Oracle

variable {o : Oracle}

theorem lasting_price_pos (p : MeasurementParams) :
    Lasting WaterOffer p fun r => 1 ≤ r.measured.price where
  accepted _ hscreen _ := WaterPrice.price_pos_of_perLiter (screen_of_ok hscreen).2
  endorsed hpos hendorse := by
    obtain ⟨-, -, rfl⟩ := endorse_of_ok hendorse
    exact hpos

theorem lasting_true (p : MeasurementParams) : Lasting ExchangeRate p fun _ => True where
  accepted _ _ _ := trivial
  endorsed _ _ := trivial

/-- An average is between the observations that it is made of. -/
theorem mem_of_waterAverage? {currency : String} {days now average lo hi : UInt64}
    (h : o.waterAverage? currency days now = some average)
    (hprices : ∀ (id : Digest) r, o.tables.water[id]? = some r →
      lo ≤ r.measured.price ∧ r.measured.price ≤ hi) :
    lo ≤ average ∧ average ≤ hi := by
  obtain ⟨summary, hsummary, rfl⟩ := Option.map_eq_some_iff.1 h
  obtain ⟨hsummary, -⟩ := Option.filter_eq_some_iff.1 hsummary
  have hmean := value_summary_eq (o.waterWindow currency days now) o.params.averagingWidth
    o.params.minSignificantSamples
  change Summary.of? _ _ _ = _ at hsummary
  rw [hsummary] at hmean
  refine mem_of_gaussianMean? hmean.symm fun price hprice => ?_
  obtain ⟨r, hr, rfl⟩ := List.mem_map.1 hprice
  obtain ⟨id, hid⟩ := Table.mem_values.1 (List.mem_filter.1 hr).1
  exact hprices id r hid

theorem theoreticalRate_pos (hprices : ∀ (id : Digest) r, o.tables.water[id]? = some r →
      1 ≤ r.measured.price) (currency : String) (now : UInt64) :
    0 < o.theoreticalRate currency now := by
  unfold theoreticalRate
  cases h : (Currency.fiat? currency).bind fun fiat => o.waterAverage? fiat 7 now with
  | none => exact show (0 : UInt64) < 1000000 by decide
  | some average =>
    obtain ⟨fiat, -, haverage⟩ := Option.bind_eq_some_iff.1 h
    have hlargest (v : UInt64) : v ≤ 18446744073709551615 :=
      UInt64.le_iff_toNat_le.2 (Nat.le_of_lt_succ v.toNat_lt_size)
    have hle := (mem_of_waterAverage? haverage fun id r hr => ⟨hprices id r hr, hlargest _⟩).1
    exact UInt64.lt_of_lt_of_le (by decide) hle

/-- Over the life of a store that was empty, the theoretical rate of a currency is never zero, and
the deviation gauges the distance from it. -/
theorem rateDeviation_gauges {store : Store} {directory : Directory} {config : Config}
    (hempty : store.entries = ∅) (hbegin : begin? store directory config = .ok o)
    (life : List Chapter) (currency : String) (now : UInt64) :
    0 < (o.live life).theoreticalRate currency now ∧
      Gauges ((o.live life).theoreticalRate currency now)
        ((o.live life).rateDeviation currency · now) := by
  have hall := allReadings_of_anyParams lasting_price_pos lasting_true hempty hbegin life
  have hpos := theoreticalRate_pos hall.water currency now
  exact ⟨hpos, gauges_deviation hpos⟩

/-- Ada reads half a dollar off two bottles of a liter. -/
def adasBargains : List Chapter :=
  [.event (.request (.issue 2 .waterPrice (some "USD") 1750000000 1)),
    .event (.request (.submitWater
      { adasPrice with offer := ⟨"USD", 500000, .liter⟩ } 1750000060)),
    .event (.request (.submitWater
      { adasPrice with
        offer := ⟨"USD", 500000, .liter⟩
        timestamp := 1750000030
        inviteId := Invite.idOf "ada" 1750000000 1 } 1750000060))]

def twoSamples : Config := { measurement := { minSignificantSamples := 2 } }

/-- Half the words above half a dollar is as far off as half a dollar itself, by the deviation. -/
theorem rateDeviation_gauges_bargains :
    (((fresh adaAlone twoSamples).live adasBargains).theoreticalRate "OUSD" 1750000060 = 500000 ∧
      Gauges 500000 (((fresh adaAlone twoSamples).live adasBargains).rateDeviation "OUSD" ·
        1750000060)) ∧
      ((fresh adaAlone twoSamples).live adasBargains).rateDeviation "OUSD" 9223372036855275808
        1750000060 = 0 ∧
      Stability.ratio 500000 9223372036855275808 = 18446744073709551615 := by
  have hbegin : begin? .empty adaAlone twoSamples = .ok (fresh adaAlone twoSamples) := rfl
  have hrate : ((fresh adaAlone twoSamples).live adasBargains).theoreticalRate "OUSD" 1750000060 =
      500000 := by
    decide +kernel
  have hgauges := (rateDeviation_gauges rfl hbegin adasBargains "OUSD" 1750000060).2
  rw [hrate] at hgauges
  exact ⟨⟨hrate, hgauges⟩, by decide +kernel, by decide⟩

end Oracle

end WaterPeg
