import WaterPeg.Proofs.Stabilizer.Plan

/-!
How much is issued. A currency may issue an exact share of its weighted volume, and a payout gives
out no more than that, or the least reward to the least number of recipients where that is more.
-/
namespace WaterPeg

namespace Issuance

/-! ## The coins of a volume -/

section

variable {volume coins : UInt128} {ratio factor : UInt64}

/-- There is an answer where both products fit 128 bits, and it is exact. -/
theorem coins?_eq_some_iff :
    coins? volume ratio factor = some coins ↔
      volume.toNat * weight ratio < UInt128.size ∧
        volume.toNat * weight ratio * factor.toNat < UInt128.size ∧
          coins.toNat = volume.toNat * weight ratio * factor.toNat / (ppm * ppm) := by
  unfold coins?
  simp only [Option.bind_eq_bind, Option.bind_eq_some_iff, UInt128.ofNat?_eq_some_iff,
    Option.some.injEq]
  constructor
  · rintro ⟨weighted, hweighted, scaled, hscaled, rfl⟩
    rw [hweighted] at hscaled
    have hfits : scaled.toNat / (ppm * ppm) < UInt128.size :=
      Nat.lt_of_le_of_lt (Nat.div_le_self ..) scaled.toNat_lt
    rw [UInt128.toNat_ofNat_of_lt hfits, ← hscaled, ← hweighted]
    exact ⟨weighted.toNat_lt, scaled.toNat_lt, rfl⟩
  · rintro ⟨hweighted, hscaled, hcoins⟩
    refine ⟨_, UInt128.toNat_ofNat_of_lt hweighted, .ofNat (volume.toNat * weight ratio * factor.toNat),
      ?_, ?_⟩
    · rw [UInt128.toNat_ofNat_of_lt hscaled, UInt128.toNat_ofNat_of_lt hweighted]
    · rw [UInt128.toNat_ofNat_of_lt hscaled, ← hcoins, UInt128.ofNat_toNat]

theorem coins?_eq_none_iff :
    coins? volume ratio factor = none ↔
      UInt128.size ≤ volume.toNat * weight ratio ∨
        UInt128.size ≤ volume.toNat * weight ratio * factor.toNat := by
  cases h : coins? volume ratio factor with
  | some coins =>
    obtain ⟨hweighted, hscaled, -⟩ := coins?_eq_some_iff.1 h
    exact iff_of_false nofun (by omega)
  | none =>
    refine iff_of_true rfl ?_
    rcases Nat.lt_or_ge (volume.toNat * weight ratio) UInt128.size with hweighted | hweighted
    · rcases Nat.lt_or_ge (volume.toNat * weight ratio * factor.toNat) UInt128.size with
        hscaled | hscaled
      · have hfits := Nat.lt_of_le_of_lt (Nat.div_le_self _ (ppm * ppm)) hscaled
        have hsome := coins?_eq_some_iff.2
          ⟨hweighted, hscaled, UInt128.toNat_ofNat_of_lt hfits⟩
        exact nomatch h.symm.trans hsome
      · exact .inr hscaled
    · exact .inl hweighted

end

/-! ## Rewards -/

section

variable {p : StabilityParams} (hp : p.Consistent) (coins : UInt128) {n : Nat} (hn : n ≠ 0)

include hp hn

/-- A reward between the bounds loses the remainder of the division alone. -/
theorem reward_mul_of_mem (hmin : p.minReward.toNat ≤ coins.toNat / n)
    (hmax : coins.toNat / n ≤ p.maxReward.toNat) :
    (reward p coins n).toNat * n ≤ coins.toNat ∧
      coins.toNat - (reward p coins n).toNat * n < n := by
  have hreward : (reward p coins n).toNat = coins.toNat / n := by
    rw [toNat_reward hp coins hn]
    omega
  have hmod := Nat.mod_lt coins.toNat (Nat.pos_of_ne_zero hn)
  have hdiv := Nat.div_add_mod' coins.toNat n
  rw [hreward]
  omega

/-- Where the least reward raises what is paid, there are as few recipients as there may be: more of
them are called for only by coins enough for their rewards. -/
theorem reward_mul_le (hunits : p.minReward.toNat ≤ p.unitsPerRecipient.toNat)
    (hle : n ≤ recipientCount p coins) :
    (reward p coins n).toNat * n ≤
      max coins.toNat (p.minReward.toNat * p.minRecipients.toNat) := by
  rw [recipientCount_eq hp] at hle
  rcases Nat.le_total p.minReward.toNat (coins.toNat / n) with hmin | hmin
  · have hreward : (reward p coins n).toNat ≤ coins.toNat / n := by
      rw [toNat_reward hp coins hn]
      omega
    calc
      (reward p coins n).toNat * n ≤ coins.toNat / n * n := Nat.mul_le_mul_right n hreward
      _ ≤ coins.toNat := Nat.div_mul_le_self ..
      _ ≤ _ := Nat.le_max_left ..
  · have hreward : (reward p coins n).toNat = p.minReward.toNat := by
      rw [toNat_reward hp coins hn]
      omega
    rw [hreward]
    rcases Nat.le_total n p.minRecipients.toNat with hfew | hmany
    · exact Nat.le_trans (Nat.mul_le_mul_left _ hfew) (Nat.le_max_right ..)
    · have hcalled : n ≤ coins.toNat / p.unitsPerRecipient.toNat ∨ n = p.minRecipients.toNat := by
        omega
      rcases hcalled with hcalled | rfl
      · calc
          p.minReward.toNat * n ≤ p.unitsPerRecipient.toNat * n := Nat.mul_le_mul_right n hunits
          _ ≤ p.unitsPerRecipient.toNat * (coins.toNat / p.unitsPerRecipient.toNat) :=
            Nat.mul_le_mul_left _ hcalled
          _ ≤ coins.toNat := Nat.mul_div_le ..
          _ ≤ _ := Nat.le_max_left ..
      · exact Nat.le_max_right ..

end

end Issuance

namespace Stabilizer

/-! ## What a currency may issue -/

/-- What a currency that may issue does issue: nothing at a ratio of zero, and otherwise the share of
its volume by the distance of the ratio from one, rounded down. A product that does not fit 128 bits
is an error. -/
structure Assessed (s : Stabilizer) (block : Block) (c : String) (i : Standing) : Prop where
  of_ratio_zero : i.ratio = 0 → s.coinsFor c block = .ok 0
  of_fits : i.ratio ≠ 0 →
    (block.volume c).toNat * absDiff ppm i.ratio.toNat < UInt128.size →
    (block.volume c).toNat * absDiff ppm i.ratio.toNat * s.params.coinFactor.toNat < UInt128.size →
    ∃ coins, s.coinsFor c block = .ok coins ∧ coins.toNat =
      (block.volume c).toNat * absDiff ppm i.ratio.toNat * s.params.coinFactor.toNat / (ppm * ppm)
  of_overflow : i.ratio ≠ 0 →
    UInt128.size ≤ (block.volume c).toNat * absDiff ppm i.ratio.toNat ∨
      UInt128.size ≤
        (block.volume c).toNat * absDiff ppm i.ratio.toNat * s.params.coinFactor.toNat →
    s.coinsFor c block = .error (.overflow c)

section

variable {s : Stabilizer} {block : Block} {c : String} {i : Standing}
  (hi : s.standings[c]? = some i) (hmay : s.mayIssue i block.height)

include hi hmay

theorem coinsFor_of_mayIssue :
    s.coinsFor c block =
      (Issuance.coins? (block.volume c) i.ratio s.params.coinFactor).elim (.error (.overflow c))
        .ok := by
  unfold coinsFor
  rw [hi]
  dsimp only
  rw [if_pos hmay]
  cases Issuance.coins? (block.volume c) i.ratio s.params.coinFactor with
  | none => rfl
  | some coins => rfl

theorem assessed_of_mayIssue : s.Assessed block c i := by
  have hcoins := coinsFor_of_mayIssue hi hmay
  have hweight (h : i.ratio ≠ 0) : Issuance.weight i.ratio = absDiff ppm i.ratio.toNat := if_neg h
  constructor
  · intro hzero
    have hweightless : Issuance.weight i.ratio = 0 := if_pos hzero
    have hnothing : Issuance.coins? (block.volume c) i.ratio s.params.coinFactor = some 0 := by
      rw [Issuance.coins?_eq_some_iff, hweightless, Nat.mul_zero, Nat.zero_mul]
      exact ⟨by decide, by decide, rfl⟩
    rw [hcoins, hnothing]
    rfl
  · intro hratio hweighted hscaled
    cases hissued : Issuance.coins? (block.volume c) i.ratio s.params.coinFactor with
    | none =>
      rw [Issuance.coins?_eq_none_iff, hweight hratio] at hissued
      omega
    | some coins =>
      rw [hissued] at hcoins
      rw [Issuance.coins?_eq_some_iff, hweight hratio] at hissued
      exact ⟨coins, hcoins, hissued.2.2⟩
  · intro hratio hoverflow
    have hissued : Issuance.coins? (block.volume c) i.ratio s.params.coinFactor = none := by
      rw [Issuance.coins?_eq_none_iff, hweight hratio]
      exact hoverflow
    rw [hcoins, hissued]
    rfl

end

/-! ## What is paid out -/

/-- A payout gives out no more than the coins of its currency, or than the least reward to the least
number of recipients; and where the bounds on rewards change nothing, all but a remainder. -/
structure Justified (p : StabilityParams) (coins : UInt128) (payout : Payout) : Prop where
  coins_le : payout.coins.toNat ≤ max coins.toNat (p.minReward.toNat * p.minRecipients.toNat)
  remainder_lt : p.minReward.toNat ≤ coins.toNat / payout.outputs.length →
    coins.toNat / payout.outputs.length ≤ p.maxReward.toNat →
      payout.coins.toNat ≤ coins.toNat ∧
        coins.toNat - payout.coins.toNat < payout.outputs.length

theorem justified_of_payout? {s : Stabilizer} (hp : s.params.Consistent)
    (hunits : s.params.minReward.toNat ≤ s.params.unitsPerRecipient.toNat) {block : Block}
    {c : String} {payout : Payout} (h : s.payout? block c = .ok (some payout)) :
    ∃ coins, s.coinsFor payout.currency block = .ok coins ∧ Justified s.params coins payout := by
  obtain ⟨coins, paid, hcoins, -, hdrawn, hpaid, rfl⟩ := payout?_eq_some_iff.1 h
  have hpaid := toNat_of_paid? hpaid
  have hlength : (s.equalPayout block c coins paid).outputs.length =
      (s.drawn block c coins).length := List.length_map _
  have hsome : (s.drawn block c coins).length ≠ 0 := mt List.length_eq_zero_iff.1 hdrawn
  have hle : (s.drawn block c coins).length ≤ Issuance.recipientCount s.params coins := by
    rw [length_drawn hp, Issuance.recipientCount_eq hp]
    exact Nat.min_le_right ..
  refine ⟨coins, hcoins, ?_, ?_⟩
  · change paid.toNat ≤ _
    rw [hpaid]
    exact Issuance.reward_mul_le hp coins hsome hunits hle
  · rw [hlength]
    change _ → _ → paid.toNat ≤ _ ∧ _ - paid.toNat < _
    rw [hpaid]
    exact Issuance.reward_mul_of_mem hp coins hsome

/-- Where a least reward is no more than the units that call for one recipient, no payout gives out
more than the block justifies, and what a currency may issue is exact or an error. -/
theorem issuance_justified {config : Config} (hc : config.checked = .ok config)
    (hunits : config.stabilization.minReward.toNat ≤ config.stabilization.unitsPerRecipient.toNat)
    {directory : Directory} {s : Stabilizer} (hs : Reachable config.stabilization directory s)
    (block : Block) :
    (∀ payouts, s.plan block = .ok payouts → ∀ p ∈ payouts,
      ∃ coins, s.coinsFor p.currency block = .ok coins ∧
        Justified config.stabilization coins p) ∧
    ∀ c i, s.standings[c]? = some i → s.mayIssue i block.height → s.Assessed block c i := by
  have hparams : s.params.Consistent := hs.params_eq ▸ Config.consistent_of_checked hc
  refine ⟨fun payouts hplan p hmem => ?_, fun c i => assessed_of_mayIssue⟩
  obtain ⟨c, -, hpay⟩ := (mem_plan_iff hplan).1 hmem
  rw [← hs.params_eq] at hunits ⊢
  exact justified_of_payout? hparams hunits hpay

def smallBlock : Block := ⟨144, 86400, .zero, (∅ : Table String UInt128).insert "OUSD" 4020⟩

/-- Of 201 coins two users are given 100 each. -/
theorem issuance_justified_smallBlock :
    ∃ payouts, ((new {} euroUsers).run dollarsOff).plan smallBlock = .ok payouts ∧
      payouts.map (fun p => (p.currency, p.coins, p.outputs.length)) = [("OUSD", 200, 2)] ∧
      (∀ p ∈ payouts, ∃ coins,
        ((new {} euroUsers).run dollarsOff).coinsFor p.currency smallBlock = .ok coins ∧
          Justified {} coins p) ∧
      ∃ i, ((new {} euroUsers).run dollarsOff).standings["OUSD"]? = some i ∧ i.ratio = 500000 ∧
        ((new {} euroUsers).run dollarsOff).Assessed smallBlock "OUSD" i := by
  have hplanned : (((new {} euroUsers).run dollarsOff).plan smallBlock).toOption.map
      (·.map fun p => (p.currency, p.coins, p.outputs.length)) = some [("OUSD", 200, 2)] := by
    decide +kernel
  obtain ⟨payouts, hsome, hamounts⟩ := Option.map_eq_some_iff.1 hplanned
  have hplan := toOption_eq_some_iff.1 hsome
  have hdue : ((new {} euroUsers).run dollarsOff).standings["OUSD"]?.map (fun i =>
      (i.ratio, ((new {} euroUsers).run dollarsOff).mayIssue i 144)) = some (500000, true) := by
    decide +kernel
  obtain ⟨i, hi, hratio⟩ := Option.map_eq_some_iff.1 hdue
  obtain ⟨hratio, hmay⟩ := Prod.mk.inj hratio
  have hconfig : Config.checked {} = .ok {} := rfl
  have hunits : ({} : Config).stabilization.minReward.toNat ≤
      ({} : Config).stabilization.unitsPerRecipient.toNat := by decide
  obtain ⟨hpaid, hissued⟩ :=
    issuance_justified hconfig hunits (Reachable.new.run dollarsOff) smallBlock
  exact ⟨payouts, hplan, hamounts, hpaid payouts hplan, i, hi, hratio, hissued "OUSD" i hi hmay⟩

end Stabilizer

end WaterPeg
