import WaterPeg.Proofs.Calendar.Days
import WaterPeg.Proofs.Oracle.Deviations

/-!
The flags of rollups. A rollup looks up the price of water by itself, over the week up to the end of
its day, and comes to the deviation that the oracle answers about that moment.
-/
namespace WaterPeg.Oracle

variable {o : Oracle}

/-- The price of water that a rollup looks up for itself is the theoretical rate. -/
theorem theoreticalRate_of_fiat {currency fiat : String}
    (h : Currency.fiat? currency = some fiat) (now : UInt64) :
    o.theoreticalRate currency now =
      match o.summarize? (o.waterWindow fiat 7 now) with
      | some s => if s.isSignificant then s.value else 1000000
      | none => 1000000 := by
  unfold theoreticalRate waterAverage? waterSummary? significant?
  rw [h, Option.bind_some]
  cases o.summarize? (o.waterWindow fiat 7 now) with
  | none => rfl
  | some s =>
    cases hs : s.isSignificant with
    | true => simp [Option.filter, hs]
    | false => simp [Option.filter, hs]

theorem wasStable_of_fiat {currency fiat : String} (h : Currency.fiat? currency = some fiat)
    (rate stop : UInt64) : o.wasStable currency (some rate) stop =
      decide (o.rateDeviation currency rate stop ≤ o.params.dailyTolerance) := by
  unfold wasStable
  rw [h]
  exact (congrArg (fun price => decide (deviation rate price ≤ o.params.dailyTolerance))
    (theoreticalRate_of_fiat h stop)).symm

/-- A rollup takes part in no average, so the deviations are the same after it. -/
theorem rateDeviation_rollUpDay (o : Oracle) (date : Date) (blockHeight : UInt64) :
    (o.rollUpDay date blockHeight).2.rateDeviation = o.rateDeviation := by
  have hprices : (o.rollUpDay date blockHeight).2.waterAverage? = o.waterAverage? :=
    congrArg PriceFeed.waterPrice (o.clerical_rollUpDay date blockHeight).feed_eq
  funext currency measured now
  unfold rateDeviation theoreticalRate
  rw [hprices]

/-- A day from 1970 on has a last second, and the flags of its rollups are what the oracle answers
about that second, before the day is rolled up and after. A pegged currency with a rate of the day
is flagged exactly if the deviation of that rate is tolerated, and one without is not; any other
currency is. -/
theorem isStable_of_rollUpDay (o : Oracle) {date : Date} (hdate : 1970 ≤ date.year)
    (blockHeight : UInt64) :
    ∃ start stop, date.bounds? = some (start, stop) ∧
      ∀ rollups o', o.rollUpDay date blockHeight = (.ok rollups, o') → ∀ r ∈ rollups,
        (Currency.isPegged r.currency = true → ∀ rate, r.exchangeRate = some rate →
          (r.isStable = true ↔
            o.rateDeviation r.currency rate stop ≤ o.params.dailyTolerance) ∧
          o'.rateDeviation r.currency rate stop = o.rateDeviation r.currency rate stop) ∧
        (Currency.isPegged r.currency = true → r.exchangeRate = none → r.isStable = false) ∧
        (Currency.isPegged r.currency = false → r.isStable = true) := by
  obtain ⟨⟨start, stop⟩, hbounds⟩ := Date.exists_bounds_of_year hdate
  refine ⟨start, stop, hbounds, fun rollups o' h r hr => ?_⟩
  have hsame : o'.rateDeviation = o.rateDeviation := by
    have hrolled := o.rateDeviation_rollUpDay date blockHeight
    rwa [h] at hrolled
  have hflag : r.isStable = o.wasStable r.currency r.exchangeRate stop := by
    obtain ⟨start', stop', hbounds', rfl, -⟩ := rollUpDay_of_ok h
    obtain ⟨rfl, rfl⟩ := Prod.mk.inj (Option.some.inj (hbounds.symm.trans hbounds'))
    obtain ⟨currency, -, rfl⟩ := List.mem_map.1 hr
    rfl
  rw [hflag]
  refine ⟨fun hpegged rate hrate => ?_, fun hpegged hrate => ?_, fun hpegged => ?_⟩
  · obtain ⟨fiat, hfiat⟩ := Option.isSome_iff_exists.1 hpegged
    rw [hrate, hsame, wasStable_of_fiat hfiat, decide_eq_true_iff]
    exact ⟨Iff.rfl, rfl⟩
  · obtain ⟨fiat, hfiat⟩ := Option.isSome_iff_exists.1 hpegged
    rw [hrate, wasStable, hfiat]
  · have hfiat : Currency.fiat? r.currency = none :=
      Option.isNone_iff_eq_none.1 (Option.isSome_eq_false_iff.1 hpegged)
    rw [wasStable, hfiat]

/-- Ada reads half a dollar off two bottles of a liter, and a rate of one at the bank. -/
def adasFair : List Chapter :=
  adasBargains ++
    [.event (.request (.issue 1 .exchangeRate (some "OUSD") 1750000100 2)),
      .event (.request (.submitRate
        { submitter := "ada"
          offer := ⟨"OUSD", "USD", 1000000⟩
          evidence := "https://bank.example/rates"
          source := .userOnline
          timestamp := 1750000130
          blockHeight := 2
          inviteId := Invite.idOf "ada" 1750000100 2 } 1750000120))]

def adasDay : Date := (Date.ofParts? 2025 6 15).get (by decide)

/-- On that day the dollar trades at twice the price of its water, which is not tolerated. -/
theorem isStable_of_adasFair : ∃ start stop rollups o' r,
    adasDay.bounds? = some (start, stop) ∧
      ((fresh adaAlone twoSamples).live adasFair).rollUpDay adasDay 2 = (.ok rollups, o') ∧
      r ∈ rollups ∧ r.currency = "OUSD" ∧ r.exchangeRate = some 1000000 ∧ r.isStable = false ∧
      ¬((fresh adaAlone twoSamples).live adasFair).rateDeviation "OUSD" 1000000 stop ≤
        ((fresh adaAlone twoSamples).live adasFair).params.dailyTolerance := by
  have hyear : 1970 ≤ adasDay.year := by decide
  obtain ⟨start, stop, hbounds, hall⟩ :=
    isStable_of_rollUpDay ((fresh adaAlone twoSamples).live adasFair) hyear 2
  have hshown : (((fresh adaAlone twoSamples).live adasFair).rollUpDay adasDay 2).1.toOption.map
      (·.map fun r => (r.currency, r.exchangeRate, r.isStable)) =
        some [("OUSD", some 1000000, false), ("USD", none, true)] := by
    decide +kernel
  rcases hday : ((fresh adaAlone twoSamples).live adasFair).rollUpDay adasDay 2 with
    ⟨why | rollups, o'⟩
  · rw [hday] at hshown
    exact nomatch hshown
  · rw [hday] at hshown
    have hmap : (rollups.map fun r => (r.currency, r.exchangeRate, r.isStable)) =
        [("OUSD", some 1000000, false), ("USD", none, true)] := Option.some.inj hshown
    have hmem := hmap ▸ List.mem_cons_self
    obtain ⟨r, hr, hparts⟩ := List.mem_map.1 hmem
    obtain ⟨hcurrency, hparts⟩ := Prod.mk.inj hparts
    obtain ⟨hrate, hstable⟩ := Prod.mk.inj hparts
    have hpegged : Currency.isPegged r.currency = true := by
      rw [hcurrency]
      decide
    have hflag := ((hall rollups o' hday r hr).1 hpegged 1000000 hrate).1
    rw [hcurrency, hstable] at hflag
    refine ⟨start, stop, rollups, o', r, hbounds, rfl, hr, hcurrency, hrate, hstable, ?_⟩
    exact fun hle => Bool.false_ne_true (hflag.2 hle)

end WaterPeg.Oracle
