import WaterPeg.Proofs.Moments
import WaterPeg.Proofs.Oracle.Requests
import WaterPeg.Proofs.Tables

/-!
The samples in the observations. The feed is made of how many samples of each value, time and state
of validation there are for a currency or a pair, and shows nothing else of the observations.
-/
namespace WaterPeg

structure Sample where
  value : UInt64
  timestamp : UInt64
  isValidated : Bool
deriving DecidableEq

def Sample.counts (s : Sample) (start stop : UInt64) (validatedOnly : Bool) : Bool :=
  start ≤ s.timestamp && s.timestamp ≤ stop && (!validatedOnly || s.isValidated)

namespace Tables

def waterSamples (t : Tables) (currency : String) : List Sample :=
  (t.water.values.filter fun r => r.measured.currency == currency).map fun r =>
    ⟨r.measured.price, r.timestamp, r.isValidated⟩

def rateSamples (t : Tables) (base quote : String) : List Sample :=
  (t.rates.values.filter fun r => r.measured.base == base && r.measured.quote == quote).map fun r =>
    ⟨r.measured.rate, r.timestamp, r.isValidated⟩

theorem waterPrices_eq (t : Tables) (currency : String) (start stop : UInt64)
    (validatedOnly : Bool) : t.waterPrices currency start stop validatedOnly =
      ((t.waterSamples currency).filter (·.counts start stop validatedOnly)).map Sample.value := by
  unfold waterSamples waterPrices
  rw [List.filter_map, List.filter_filter, List.map_map]
  have hkeep : (fun r : Reading WaterPrice =>
      r.measured.currency == currency && r.counts start stop validatedOnly) =
        fun r => r.counts start stop validatedOnly && r.measured.currency == currency := by
    funext r
    rw [Bool.and_comm]
  rw [hkeep]
  rfl

theorem exchangeRates_eq (t : Tables) (base quote : String) (start stop : UInt64)
    (validatedOnly : Bool) : t.exchangeRates base quote start stop validatedOnly =
      ((t.rateSamples base quote).filter (·.counts start stop validatedOnly)).map Sample.value := by
  unfold rateSamples exchangeRates
  rw [List.filter_map, List.filter_filter, List.map_map]
  have hkeep : (fun r : Reading ExchangeRate => r.measured.base == base &&
      r.measured.quote == quote && r.counts start stop validatedOnly) =
        fun r => r.counts start stop validatedOnly &&
          (r.measured.base == base && r.measured.quote == quote) := by
    funext r
    rw [Bool.and_comm]
  rw [hkeep]
  rfl

/-- The currencies of the feed are those with samples. -/
theorem mem_currencies {t : Tables} {c : String} :
    c ∈ t.currencies ↔
      (∃ s, s ∈ t.waterSamples c) ∨ ∃ quote s, s ∈ t.rateSamples c quote := by
  unfold currencies currenciesAt waterSamples rateSamples
  rw [mem_toList_insertMany, List.mem_append]
  simp only [List.mem_map, List.mem_filter, and_true, beq_iff_eq, Bool.and_eq_true]
  constructor
  · rintro (⟨r, hr, rfl⟩ | ⟨r, hr, rfl⟩)
    · exact Or.inl ⟨_, r, ⟨hr, rfl⟩, rfl⟩
    · exact Or.inr ⟨_, _, r, ⟨hr, rfl, rfl⟩, rfl⟩
  · rintro (⟨_, r, ⟨hr, hc⟩, -⟩ | ⟨quote, _, r, ⟨hr, hc, -⟩, -⟩)
    · exact Or.inl ⟨r, hr, hc⟩
    · exact Or.inr ⟨r, hr, hc⟩

/-- Tables whose observations hold the same samples, each as often, for every currency and pair. -/
structure SameSamples (t t' : Tables) : Prop where
  water : ∀ currency, (t'.waterSamples currency).Perm (t.waterSamples currency)
  rates : ∀ base quote, (t'.rateSamples base quote).Perm (t.rateSamples base quote)

def allWater (t : Tables) : List (String × Sample) :=
  t.water.values.map fun r => (r.measured.currency, ⟨r.measured.price, r.timestamp, r.isValidated⟩)

def allRates (t : Tables) : List ((String × String) × Sample) :=
  t.rates.values.map fun r =>
    ((r.measured.base, r.measured.quote), ⟨r.measured.rate, r.timestamp, r.isValidated⟩)

theorem sameSamples_of_perm {t t' : Tables} (hwater : t'.allWater.Perm t.allWater)
    (hrates : t'.allRates.Perm t.allRates) : t.SameSamples t' := by
  have hfilterWater (t : Tables) (currency : String) : t.waterSamples currency =
      (t.allWater.filter fun x => x.1 == currency).map (·.2) := by
    unfold waterSamples allWater
    rw [List.filter_map, List.map_map]
    rfl
  have hfilterRates (t : Tables) (base quote : String) : t.rateSamples base quote =
      (t.allRates.filter fun x => x.1.1 == base && x.1.2 == quote).map (·.2) := by
    unfold rateSamples allRates
    rw [List.filter_map, List.map_map]
    rfl
  refine ⟨fun currency => ?_, fun base quote => ?_⟩
  · rw [hfilterWater, hfilterWater]
    exact (hwater.filter _).map _
  · rw [hfilterRates, hfilterRates]
    exact (hrates.filter _).map _

namespace SameSamples

variable {t t' : Tables} (h : t.SameSamples t')

include h

theorem waterPrices (currency : String) (start stop : UInt64) (validatedOnly : Bool) :
    (t'.waterPrices currency start stop validatedOnly).Perm
      (t.waterPrices currency start stop validatedOnly) := by
  rw [waterPrices_eq, waterPrices_eq]
  exact ((h.water currency).filter _).map _

theorem exchangeRates (base quote : String) (start stop : UInt64) (validatedOnly : Bool) :
    (t'.exchangeRates base quote start stop validatedOnly).Perm
      (t.exchangeRates base quote start stop validatedOnly) := by
  rw [exchangeRates_eq, exchangeRates_eq]
  exact ((h.rates base quote).filter _).map _

theorem currencies_eq : t'.currencies = t.currencies := by
  have hmem (c : String) : c ∈ t'.currencies ↔ c ∈ t.currencies := by
    have hwater (s : Sample) : s ∈ t'.waterSamples c ↔ s ∈ t.waterSamples c := (h.water c).mem_iff
    have hrates (quote : String) (s : Sample) :
        s ∈ t'.rateSamples c quote ↔ s ∈ t.rateSamples c quote := (h.rates c quote).mem_iff
    simp only [mem_currencies, hwater, hrates]
  unfold currencies currenciesAt at hmem ⊢
  simp only [mem_toList_insertMany] at hmem
  exact toList_insertMany_eq_of_mem_iff hmem

end SameSamples

end Tables

namespace Oracle

/-- Oracles that ask the same of observations, and have the same samples, feed the same averages. -/
theorem feed_eq_of_sameSamples {o o' : Oracle} (hparams : o'.params = o.params)
    (h : o.tables.SameSamples o'.tables) : o'.feed = o.feed := by
  have hprices : o'.waterAverage? = o.waterAverage? := by
    funext currency days now
    simp only [waterAverage?, waterSummary?, summarize?, waterWindow, hparams,
      Summary.of?_perm (h.waterPrices currency _ now _)]
  have hexchange : o'.exchangeAverage? = o.exchangeAverage? := by
    funext base quote days now
    simp only [exchangeAverage?, exchangeSummary?, summarize?, exchangeWindow, hparams,
      Summary.of?_perm (h.exchangeRates base quote _ now _)]
  simp only [feed, h.currencies_eq, hprices, hexchange]

end Oracle

end WaterPeg
