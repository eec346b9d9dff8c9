import WaterPeg.Proofs.Oracle.Readings
import WaterPeg.Proofs.Volume

/-!
What averages and rollups may take for granted of an observation: its value, its container, its
pair of currencies and its time are as the checks of its submission left them. There is one lemma
for each check, which says what passing it means.
-/
namespace WaterPeg

theorem Tables.toNat_windowStart (now days : UInt64) :
    (Tables.windowStart now days).toNat = now.toNat - days.toNat * secondsPerDay := by
  have hword : now.toNat - days.toNat * secondsPerDay < UInt64.size :=
    Nat.lt_of_le_of_lt (Nat.sub_le _ _) now.toNat_lt_size
  exact UInt64.toNat_ofNat_of_lt' hword

namespace MeasurementParams

variable {p : MeasurementParams}

/-- An observation was made when it may be: offline, about when it was accepted; online, a little
ahead at most, and within the acceptance window. -/
def Timely (p : MeasurementParams) (source : Source) (timestamp now : UInt64) : Prop :=
  if source.isOffline then absDiff now.toNat timestamp.toNat ≤ p.offlineTolerance.toNat
  else
    timestamp.toNat ≤ now.toNat + p.maxFutureDrift.toNat ∧
      now.toNat ≤ timestamp.toNat + p.acceptanceWindowDays.toNat * secondsPerDay

theorem le_of_checkValue {value : UInt64} (h : p.checkValue value = .ok ()) :
    1 ≤ value.toNat ∧ value ≤ p.maxValue := by
  unfold checkValue at h
  split at h
  · exact nomatch h
  next hzero =>
  split at h
  · exact nomatch h
  next hle =>
  refine ⟨Nat.pos_of_ne_zero fun htoNat => hzero ?_, UInt64.not_lt.1 hle⟩
  exact UInt64.toNat_inj.1 htoNat

theorem timely_of_checkTime {source : Source} {timestamp now : UInt64}
    (h : p.checkTime source timestamp now = .ok ()) : p.Timely source timestamp now := by
  unfold checkTime at h
  unfold Timely
  by_cases hoffline : source.isOffline
  · rw [if_pos hoffline] at h ⊢
    dsimp only at h
    split at h
    · exact nomatch h
    · next hage => exact Nat.le_of_not_lt hage
  · rw [if_neg hoffline] at h ⊢
    split at h
    · next hahead =>
      have hlt := UInt64.lt_iff_toNat_lt.1 hahead
      dsimp only at h
      split at h
      · exact nomatch h
      · next hdrift => omega
    · next hbehind =>
      have hle := UInt64.le_iff_toNat_le.1 (UInt64.not_lt.1 hbehind)
      split at h
      · exact nomatch h
      · next hwindow =>
        have hstart := UInt64.le_iff_toNat_le.1 (UInt64.not_lt.1 hwindow)
        rw [Tables.toNat_windowStart] at hstart
        omega

end MeasurementParams

/-! ## What is measured -/

/-- The price of a liter that was read off a container of an accepted size. Both the volume and the
price are the nearest to what the label says. -/
structure WaterPrice.Sound (p : MeasurementParams) (w : WaterPrice) : Prop where
  price_pos : 1 ≤ w.price.toNat
  price_le : w.price ≤ p.maxValue
  minVolume_le : p.minVolume ≤ w.container.microLiters
  le_maxVolume : w.container.microLiters ≤ p.maxVolume
  volume_nearest :
    2 * absDiff (w.container.microLiters.toNat * 1000000)
      (w.container.amountMilli.toNat * w.container.unit.nanoLiters) ≤ 1000000
  price_nearest :
    2 * absDiff (w.price.toNat * w.container.microLiters.toNat)
      (w.containerPrice.toNat * 1000000) ≤ w.container.microLiters.toNat

structure ExchangeRate.Sound (p : MeasurementParams) (r : ExchangeRate) : Prop where
  rate_pos : 1 ≤ r.rate.toNat
  rate_le : r.rate ≤ p.maxValue
  pegged : Currency.isPegged r.base
  base_eq : r.base = "O" ++ r.quote

theorem WaterPrice.sound_of_perLiter {p : MeasurementParams}
    (hmax : p.maxVolume.toNat < UInt64.size - 1) {o : WaterOffer} {w : WaterPrice}
    (h : p.perLiter o = .ok w) : w.Sound p := by
  obtain ⟨-, hmin, hle, price, hprice, hvalue, rfl⟩ := p.perLiter_of_ok h
  obtain ⟨hpos, hpriceMax⟩ := p.le_of_checkValue hvalue
  have hword : o.container.microLiters.toNat < UInt64.size - 1 := by
    have hvolumeMax := UInt64.le_iff_toNat_le.1 hle
    omega
  exact
    { price_pos := hpos
      price_le := hpriceMax
      minVolume_le := hmin
      le_maxVolume := hle
      volume_nearest := Container.absDiff_microLiters_le hword
      price_nearest := absDiff_pricePerLiter?_le hprice }

theorem Currency.eq_of_fiat? {code quote : String} (h : fiat? code = some quote) :
    code = "O" ++ quote := by
  unfold fiat? at h
  split at h
  · next c d rest hcode =>
    split at h
    · obtain rfl := Option.some.inj h
      refine String.toList_injective ?_
      simp [hcode]
    · exact nomatch h
  · exact nomatch h

theorem ExchangeRate.sound_of_checks {p : MeasurementParams} {r r' : ExchangeRate}
    (hpair : Quantity.admissible r = .ok ()) (h : Quantity.measure p r = .ok r') :
    r'.Sound p := by
  obtain ⟨_, hvalue, rfl⟩ := map_eq_ok_iff.1 h
  obtain ⟨hpos, hmax⟩ := p.le_of_checkValue hvalue
  change (if Currency.fiat? r.base = some r.quote then _ else _) = _ at hpair
  split at hpair
  · next hfiat =>
    have hpegged : Currency.isPegged r.base := by
      rw [Currency.isPegged, hfiat]
      rfl
    exact ⟨hpos, hmax, hpegged, Currency.eq_of_fiat? hfiat⟩
  · exact nomatch hpair

/-! ## Observations -/

structure Reading.WellFormed {α : Type} (p : MeasurementParams) (Sound : α → Prop)
    (r : Reading α) : Prop where
  sound : Sound r.measured
  passed : r.check.passed
  timely : p.Timely r.source r.timestamp r.check.checkedAt

namespace Oracle

variable {ω α : Type} [Quantity ω α]

theorem checks_of_screen {o : Oracle} {s : Submission ω} {now : UInt64} {invite : Invite}
    {measured : α} (h : o.screen s now = .ok (invite, measured)) :
    Quantity.admissible s.offer = .ok () ∧ o.params.checkTime s.source s.timestamp now = .ok () := by
  obtain ⟨_, -, h⟩ := bind_eq_ok_iff.1 h
  obtain ⟨_, hadmissible, h⟩ := bind_eq_ok_iff.1 h
  obtain ⟨_, -, h⟩ := bind_eq_ok_iff.1 h
  obtain ⟨_, htime, h⟩ := bind_eq_ok_iff.1 h
  exact ⟨hadmissible, htime⟩

/-- Peers add to an observation, but to nothing that it was checked for. -/
theorem lasting_wellFormed {p : MeasurementParams} {Sound : α → Prop}
    (hsound : ∀ {offer : ω} {measured : α}, Quantity.admissible offer = .ok () →
      Quantity.measure p offer = .ok measured → Sound measured) :
    Lasting ω p (Reading.WellFormed p Sound) where
  accepted := by
    intro o s now invite measured hparams hscreen moments
    obtain ⟨hadmissible, htime⟩ := checks_of_screen hscreen
    have hmeasure := (screen_of_ok hscreen).2
    rw [hparams] at htime hmeasure
    exact
      { sound := hsound hadmissible hmeasure
        passed := rfl
        timely := p.timely_of_checkTime htime }
  endorsed := by
    intro r r' validator hr hendorse
    obtain ⟨-, -, rfl⟩ := endorse_of_ok hendorse
    exact ⟨hr.sound, hr.passed, hr.timely⟩

/-- Over the life of a store that was empty, every observation is well formed by the parameters, if
no accepted volume is the largest word, where volumes are clamped. -/
theorem wellFormed_of_empty {store : Store} {directory : Directory} {config : Config} {o : Oracle}
    (hempty : store.entries = ∅) (hbegin : begin? store directory config = .ok o)
    (hmax : config.measurement.maxVolume.toNat < UInt64.size - 1) {life : List Chapter}
    (hlife : ∀ c ∈ life, c.Under config.measurement) :
    (o.live life).tables.AllReadings
      (Reading.WellFormed config.measurement (WaterPrice.Sound config.measurement))
      (Reading.WellFormed config.measurement (ExchangeRate.Sound config.measurement)) := by
  have hwater : Lasting WaterOffer config.measurement
      (Reading.WellFormed config.measurement (WaterPrice.Sound config.measurement)) :=
    lasting_wellFormed fun _ hmeasure => WaterPrice.sound_of_perLiter hmax hmeasure
  have hrates : Lasting ExchangeRate config.measurement
      (Reading.WellFormed config.measurement (ExchangeRate.Sound config.measurement)) :=
    lasting_wellFormed fun hpair hmeasure => ExchangeRate.sound_of_checks hpair hmeasure
  exact allReadings_of_empty hwater hrates hempty hbegin hlife

/-- Ada reads a price off a quart, and the rate of the dollar after another oracle has begun. -/
def adasQuart : List Chapter :=
  [.event (.request (.issue 1 .waterPrice (some "OUSD") 1750000000 1)),
    .event (.request (.submitWater
      { adasPrice with offer := ⟨"OUSD", 1200000, ⟨1000, .quarts⟩⟩ } 1750000060)),
    .reopen adaAlone {},
    .event (.request (.issue 1 .exchangeRate (some "OUSD") 1750000100 2)),
    .event (.request (.submitRate
      { submitter := "ada"
        offer := ⟨"OUSD", "USD", 1010000⟩
        evidence := "https://bank.example/rates"
        source := .userOnline
        timestamp := 1750000130
        blockHeight := 2
        inviteId := Invite.idOf "ada" 1750000100 1 } 1750000120))]

theorem wellFormed_of_adasQuart :
    (((fresh adaAlone {}).live adasQuart).tables.water.values.map fun r =>
        (r.measured.container.microLiters, r.measured.price)) = [(946353, 1268026)] ∧
      (((fresh adaAlone {}).live adasQuart).tables.rates.values.map (·.measured.quote)) = ["USD"] ∧
      ((fresh adaAlone {}).live adasQuart).tables.AllReadings
        (Reading.WellFormed {} (WaterPrice.Sound {}))
        (Reading.WellFormed {} (ExchangeRate.Sound {})) := by
  have hbegin : begin? .empty adaAlone {} = .ok (fresh adaAlone {}) := rfl
  have hmax : ({} : Config).measurement.maxVolume.toNat < UInt64.size - 1 := by decide
  have hlife : ∀ c ∈ adasQuart, c.Under ({} : Config).measurement := by
    simp [adasQuart, Chapter.Under]
  exact ⟨by decide +kernel, by decide +kernel, wellFormed_of_empty rfl hbegin hmax hlife⟩

end Oracle

end WaterPeg
