import Mathlib.Algebra.GroupWithZero.Nat
import WaterPeg.Proofs.Random
import WaterPeg.Proofs.Results
import WaterPeg.Proofs.Stabilizer.Runs

/-!
The shape of a plan: who issues, who is rewarded, and how much. A plan is read off as the payouts of
the unstable currencies, one by one, from which the theorem on whole plans is put together.
-/
namespace WaterPeg

/-! ## Checked parameters -/

structure StabilityParams.Consistent (p : StabilityParams) : Prop where
  minReward_le : p.minReward.toNat ≤ p.maxReward.toNat
  minRecipients_pos : 0 < p.minRecipients.toNat
  minRecipients_le : p.minRecipients.toNat ≤ p.maxRecipients.toNat
  unitsPerRecipient_pos : 0 < p.unitsPerRecipient.toNat

theorem Config.fault?_of_checked {c : Config} (hc : c.checked = .ok c) : c.fault? = none := by
  unfold Config.checked at hc
  split at hc
  · exact nomatch hc
  · assumption

theorem Config.consistent_of_checked {c : Config} (hc : c.checked = .ok c) :
    c.stabilization.Consistent := by
  have h := Config.fault?_of_checked hc
  simp only [Config.fault?, Config.rules, Option.map_eq_none_iff, List.find?_eq_none,
    List.mem_cons, List.not_mem_nil, or_false, forall_eq_or_imp, forall_eq, Bool.not_eq_true',
    Bool.not_eq_false, Bool.and_eq_true, decide_eq_true_eq] at h
  obtain ⟨-, -, -, -, -, -, -, -, -, -, ⟨-, hreward⟩, ⟨hpos, hle⟩, hunits⟩ := h
  exact ⟨hreward, UInt64.lt_iff_toNat_lt.1 hpos, UInt64.le_iff_toNat_le.1 hle, hunits⟩

/-! ## Arithmetic of an issue -/

namespace Issuance

theorem recipientCount_eq {p : StabilityParams} (hp : p.Consistent) (coins : UInt128) :
    recipientCount p coins =
      max p.minRecipients.toNat
        (min (coins.toNat / p.unitsPerRecipient.toNat) p.maxRecipients.toNat) := by
  have hmax := p.maxRecipients.toNat_lt
  have hmin := hp.minRecipients_le
  have hunits : max p.unitsPerRecipient.toNat 1 = p.unitsPerRecipient.toNat :=
    Nat.max_eq_left hp.unitsPerRecipient_pos
  unfold recipientCount clamp
  rw [hunits, show UInt64.size - 1 = 2 ^ 64 - 1 from rfl]
  omega

theorem toNat_reward {p : StabilityParams} (hp : p.Consistent) (coins : UInt128) {n : Nat}
    (hn : n ≠ 0) :
    (reward p coins n).toNat =
      max p.minReward.toNat (min (coins.toNat / n) p.maxReward.toNat) := by
  have hle := hp.minReward_le
  have hlt := p.maxReward.toNat_lt
  have hclamp : clamp p.minReward.toNat p.maxReward.toNat (coins.toNat / n) =
      max p.minReward.toNat (min (coins.toNat / n) p.maxReward.toNat) := by
    unfold clamp
    rw [Nat.max_eq_left hle]
  unfold reward
  rw [if_neg hn, hclamp, UInt128.toNat_ofNat_of_lt (by omega)]

theorem reward_mem {p : StabilityParams} (hp : p.Consistent) (coins : UInt128) {n : Nat}
    (hn : n ≠ 0) :
    p.minReward.toNat ≤ (reward p coins n).toNat ∧
      (reward p coins n).toNat ≤ p.maxReward.toNat := by
  have hle := hp.minReward_le
  rw [toNat_reward hp coins hn]
  omega

end Issuance

/-! ## Recipients -/

namespace Recipients

theorem mem_pool {d : Directory} {currencies : List String} {except user : String} :
    user ∈ pool d currencies except ↔ ∃ c ∈ currencies, c ≠ except ∧ user ∈ d.native c := by
  unfold pool
  rw [mem_toList_insertMany, List.mem_flatMap]
  simp [and_assoc]

theorem nodup_pool (d : Directory) (currencies : List String) (except : String) :
    (pool d currencies except).Nodup := nodup_toList _

theorem length_select (pool : List String) (count : Nat) (blockHash : Digest) (currency : String) :
    (select pool count blockHash currency).length = min pool.length count := by
  unfold select
  split
  · next h =>
    rw [Bool.or_eq_true, List.isEmpty_iff, beq_iff_eq] at h
    rcases h with rfl | rfl
    · simp
    · simp
  · rw [List.length_take, (RandomStream.shuffle_perm _ pool).length_eq, Nat.min_comm]

theorem sublist_shuffle_of_select (pool : List String) (count : Nat) (blockHash : Digest)
    (currency : String) :
    (select pool count blockHash currency).Sublist
      ((stream blockHash currency).shuffle pool).1 := by
  unfold select
  split
  · exact List.nil_sublist _
  · exact List.take_sublist _ _

theorem nodup_select {pool : List String} (hpool : pool.Nodup) (count : Nat) (blockHash : Digest)
    (currency : String) : (select pool count blockHash currency).Nodup :=
  ((RandomStream.shuffle_perm _ pool).nodup_iff.2 hpool).sublist
    (sublist_shuffle_of_select pool count blockHash currency)

theorem mem_of_mem_select {pool : List String} {count : Nat} {blockHash : Digest}
    {currency user : String} (h : user ∈ select pool count blockHash currency) : user ∈ pool :=
  (RandomStream.shuffle_perm _ pool).mem_iff.1
    ((sublist_shuffle_of_select pool count blockHash currency).subset h)

end Recipients

namespace Stabilizer

/-! ## Currencies of a status -/

theorem mem_withStatus {s : Stabilizer} (hs : s.Keyed) {status : Stability} {c : String} :
    c ∈ s.withStatus status ↔ ∃ i, s.standings[c]? = some i ∧ i.status = status := by
  unfold withStatus
  simp only [List.mem_map, List.mem_filter, beq_iff_eq, Table.mem_values]
  constructor
  · rintro ⟨i, ⟨⟨k, hk⟩, hi⟩, rfl⟩
    exact ⟨i, (hs k i hk).symm ▸ hk, hi⟩
  · rintro ⟨i, hc, hi⟩
    exact ⟨i, ⟨⟨c, hc⟩, hi⟩, hs c i hc⟩

theorem pairwise_withStatus {s : Stabilizer} (hs : s.Keyed) (status : Stability) :
    (s.withStatus status).Pairwise fun a b => compare a b = .lt :=
  s.standings.pairwise_filter_values Standing.currency hs _

/-! ## Single payouts -/

def drawn (s : Stabilizer) (block : Block) (c : String) (coins : UInt128) : List String :=
  s.recipients (s.recipientCount coins) c block

/-- The payout that gives each of those users the same reward, `paid` in all. -/
def equalPayout (s : Stabilizer) (block : Block) (c : String) (coins paid : UInt128) : Payout :=
  .ofRecipients block c (Issuance.reward s.params coins (s.drawn block c coins).length) paid
    (s.standing c).ratio (s.drawn block c coins)

def paid? (s : Stabilizer) (block : Block) (c : String) (coins : UInt128) : Option UInt128 :=
  UInt128.ofNat? ((Issuance.reward s.params coins (s.drawn block c coins).length).toNat
    * (s.drawn block c coins).length)

section

variable (s : Stabilizer) (block : Block) (c : String) (coins paid : UInt128)

theorem recipients_equalPayout :
    (s.equalPayout block c coins paid).recipients = s.drawn block c coins := by
  simp [equalPayout, Payout.recipients, Payout.ofRecipients, Function.comp_def]

theorem sum_equalPayout :
    ((s.equalPayout block c coins paid).outputs.map fun o => o.amount.toNat).sum =
      (Issuance.reward s.params coins (s.drawn block c coins).length).toNat *
        (s.drawn block c coins).length := by
  rw [Nat.mul_comm, ← List.sum_replicate_nat, ← List.map_const']
  exact congrArg List.sum List.map_map

end

theorem toNat_of_paid? {s : Stabilizer} {block : Block} {c : String} {coins paid : UInt128}
    (h : s.paid? block c coins = some paid) :
    paid.toNat = (Issuance.reward s.params coins (s.drawn block c coins).length).toNat *
      (s.drawn block c coins).length :=
  UInt128.ofNat?_eq_some_iff.1 h

theorem payout?_of_coinsFor {s : Stabilizer} {block : Block} {c : String} {coins : UInt128}
    (h : s.coinsFor c block = .ok coins) :
    s.payout? block c =
      if coins = 0 ∨ s.drawn block c coins = [] then .ok none
      else
        match s.paid? block c coins with
        | none => .error (.overflow c)
        | some paid => .ok (some (s.equalPayout block c coins paid)) := by
  unfold payout?
  rw [h]
  change (if coins = 0 then Except.ok none
    else if (s.drawn block c coins).isEmpty then .ok none else _) = _
  by_cases h0 : coins = 0
  · rw [if_pos h0, if_pos (Or.inl h0)]
  by_cases hd : s.drawn block c coins = []
  · rw [if_neg h0, if_pos (by simpa using hd), if_pos (Or.inr hd)]
  · rw [if_neg h0, if_neg (by simpa using hd), if_neg (by simp [h0, hd])]
    rfl

theorem payout?_of_coinsFor_error {s : Stabilizer} {block : Block} {c : String} {e : IssuanceError}
    (h : s.coinsFor c block = .error e) : s.payout? block c = .error e := by
  unfold payout?
  rw [h]
  rfl

theorem payout?_eq_some_iff {s : Stabilizer} {block : Block} {c : String} {p : Payout} :
    s.payout? block c = .ok (some p) ↔ ∃ coins paid,
      s.coinsFor c block = .ok coins ∧ coins ≠ 0 ∧ s.drawn block c coins ≠ [] ∧
        s.paid? block c coins = some paid ∧ p = s.equalPayout block c coins paid := by
  cases h : s.coinsFor c block with
  | error e => simp [payout?_of_coinsFor_error h]
  | ok coins =>
    rw [payout?_of_coinsFor h]
    by_cases h0 : coins = 0 ∨ s.drawn block c coins = []
    · rw [if_pos h0]
      constructor
      · exact nofun
      · rintro ⟨coins', paid, hcoins, hne, hd, -⟩
        obtain rfl := Except.ok.inj hcoins
        exact absurd h0 (not_or.2 ⟨hne, hd⟩)
    · rw [if_neg h0]
      obtain ⟨hne, hd⟩ := not_or.1 h0
      cases hpaid : s.paid? block c coins with
      | none => simp [hpaid]
      | some paid => simp [hpaid, hne, hd, eq_comm (a := p)]

theorem payout?_eq_none_iff {s : Stabilizer} {block : Block} {c : String} :
    s.payout? block c = .ok none ↔ ∃ coins,
      s.coinsFor c block = .ok coins ∧ (coins = 0 ∨ s.drawn block c coins = []) := by
  cases h : s.coinsFor c block with
  | error e => simp [payout?_of_coinsFor_error h]
  | ok coins =>
    rw [payout?_of_coinsFor h]
    by_cases h0 : coins = 0 ∨ s.drawn block c coins = []
    · simp [h0]
    · cases s.paid? block c coins <;> simp [h0]

/-! ## Whole plans -/

section

variable {s : Stabilizer} {block : Block} {payouts : List Payout}

theorem map_of_plan (h : s.plan block = .ok payouts) :
    ∃ found : List (Option Payout), s.unstableCurrencies.map (s.payout? block) = found.map .ok ∧
      payouts = found.filterMap id := by
  unfold plan at h
  cases hm : s.unstableCurrencies.mapM (s.payout? block) with
  | error e => rw [hm] at h; exact nomatch h
  | ok found =>
    rw [hm] at h
    exact ⟨found, mapM_eq_ok_iff.1 hm, (Except.ok.inj h).symm⟩

theorem plan_eq_filterMap (h : s.plan block = .ok payouts) :
    payouts = s.unstableCurrencies.filterMap fun c => (s.payout? block c).toOption.join := by
  obtain ⟨found, hfound, rfl⟩ := map_of_plan h
  calc
    found.filterMap id = (found.map .ok).filterMap fun r : Except IssuanceError _ =>
        r.toOption.join := by
      rw [List.filterMap_map]
      rfl
    _ = s.unstableCurrencies.filterMap fun c => (s.payout? block c).toOption.join := by
      rw [← hfound, List.filterMap_map]
      rfl

theorem exists_payout?_of_plan (h : s.plan block = .ok payouts) {c : String}
    (hc : c ∈ s.unstableCurrencies) : ∃ p?, s.payout? block c = .ok p? := by
  obtain ⟨found, hfound, -⟩ := map_of_plan h
  have hmem : s.payout? block c ∈ found.map .ok := hfound ▸ List.mem_map_of_mem hc
  obtain ⟨p?, -, hp⟩ := List.mem_map.1 hmem
  exact ⟨p?, hp.symm⟩

theorem mem_plan_iff (h : s.plan block = .ok payouts) {p : Payout} :
    p ∈ payouts ↔ ∃ c ∈ s.unstableCurrencies, s.payout? block c = .ok (some p) := by
  rw [plan_eq_filterMap h, List.mem_filterMap]
  simp only [Option.join_eq_some_iff, toOption_eq_some_iff]

theorem currency_of_payout? {c : String} {p : Payout} (h : s.payout? block c = .ok (some p)) :
    p.currency = c := by
  obtain ⟨coins, paid, -, -, -, -, rfl⟩ := payout?_eq_some_iff.1 h
  rfl

/-- The payouts of a plan come by ascending currency. -/
theorem pairwise_plan (hs : s.Keyed) (h : s.plan block = .ok payouts) :
    (payouts.map Payout.currency).Pairwise fun a b => compare a b = .lt := by
  rw [List.pairwise_map, plan_eq_filterMap h, List.pairwise_filterMap]
  refine (pairwise_withStatus hs .unstable).imp fun hab => ?_
  intro p hp q hq
  rw [Option.join_eq_some_iff, toOption_eq_some_iff] at hp hq
  rw [currency_of_payout? hp, currency_of_payout? hq]
  exact hab

end

/-! ## The shape of a plan -/

/-- A user may be rewarded when a currency issues: a native user of another currency that is
stable. -/
def Eligible (s : Stabilizer) (c user : String) : Prop :=
  ∃ (other : String) (i : Standing), other ≠ c ∧ s.standings[other]? = some i ∧
    i.status = .stable ∧ user ∈ s.directory.native other

/-- A currency issues coins in a block: it has been unstable for long enough, its coins are not
zero, and someone may be rewarded. -/
structure Issues (s : Stabilizer) (block : Block) (c : String) (coins : UInt128) : Prop where
  persisted : ∃ i, s.standings[c]? = some i ∧ i.status = .unstable ∧ s.mayIssue i block.height
  coins_eq : s.coinsFor c block = .ok coins
  coins_ne_zero : coins ≠ 0
  eligible : ∃ user, s.Eligible c user

/-- Coins are cut into equal rewards, one for each of as many eligible users as the coins call for
and the pool has. -/
structure EvenlySplit (s : Stabilizer) (coins : UInt128) (p : Payout) : Prop where
  nodup : p.recipients.Nodup
  eligible : ∀ user ∈ p.recipients, s.Eligible p.currency user
  length_eq : p.recipients.length =
    min (Recipients.pool s.directory s.stableCurrencies p.currency).length
      (max s.params.minRecipients.toNat
        (min (coins.toNat / s.params.unitsPerRecipient.toNat) s.params.maxRecipients.toNat))
  amount_eq : ∃ amount : UInt128, (∀ o ∈ p.outputs, o.amount = amount) ∧
    s.params.minReward.toNat ≤ amount.toNat ∧ amount.toNat ≤ s.params.maxReward.toNat
  coins_eq : p.coins.toNat = (p.outputs.map fun o => o.amount.toNat).sum

theorem mem_pool_iff_eligible {s : Stabilizer} (hs : s.Keyed) {c user : String} :
    user ∈ Recipients.pool s.directory s.stableCurrencies c ↔ s.Eligible c user := by
  rw [Recipients.mem_pool]
  constructor
  · rintro ⟨other, hother, hne, huser⟩
    obtain ⟨i, hi, hstatus⟩ := (mem_withStatus hs).1 hother
    exact ⟨other, i, hne, hi, hstatus, huser⟩
  · rintro ⟨other, i, hne, hi, hstatus, huser⟩
    exact ⟨other, (mem_withStatus hs).2 ⟨i, hi, hstatus⟩, hne, huser⟩

theorem length_drawn {s : Stabilizer} (hp : s.params.Consistent) (block : Block) (c : String)
    (coins : UInt128) :
    (s.drawn block c coins).length =
      min (Recipients.pool s.directory s.stableCurrencies c).length
        (max s.params.minRecipients.toNat
          (min (coins.toNat / s.params.unitsPerRecipient.toNat) s.params.maxRecipients.toNat)) := by
  unfold drawn recipients recipientCount
  rw [Recipients.length_select, Issuance.recipientCount_eq hp]

/-- Someone is drawn exactly if someone is eligible: a consistent configuration draws one user or
more wherever it can. -/
theorem drawn_ne_nil_iff {s : Stabilizer} (hs : s.Keyed) (hp : s.params.Consistent) {block : Block}
    {c : String} {coins : UInt128} :
    s.drawn block c coins ≠ [] ↔ ∃ user, s.Eligible c user := by
  have hmin := hp.minRecipients_pos
  rw [← List.length_pos_iff, length_drawn hp]
  constructor
  · intro h
    obtain ⟨user, huser⟩ := List.exists_mem_of_length_pos (Nat.lt_of_lt_of_le h (Nat.min_le_left ..))
    exact ⟨user, (mem_pool_iff_eligible hs).1 huser⟩
  · rintro ⟨user, huser⟩
    have := List.length_pos_of_mem ((mem_pool_iff_eligible hs).2 huser)
    omega

theorem mayIssue_of_coinsFor {s : Stabilizer} {block : Block} {c : String} {coins : UInt128}
    (h : s.coinsFor c block = .ok coins) (h0 : coins ≠ 0) :
    ∃ i, s.standings[c]? = some i ∧ i.status = .unstable ∧ s.mayIssue i block.height := by
  unfold coinsFor at h
  split at h
  · exact absurd (Except.ok.inj h).symm h0
  · next i hi =>
    split at h
    · next hmay => exact ⟨i, hi, (Standing.hasPersisted_iff.1 hmay).1, hmay⟩
    · exact absurd (Except.ok.inj h).symm h0

theorem mayIssue_of_mem_plan {s : Stabilizer} {block : Block} {payouts : List Payout}
    (h : s.plan block = .ok payouts) {c : String} (hc : c ∈ payouts.map Payout.currency) :
    ∃ i, s.standings[c]? = some i ∧ i.status = .unstable ∧ s.mayIssue i block.height := by
  obtain ⟨p, hmem, rfl⟩ := List.mem_map.1 hc
  obtain ⟨d, -, hpay⟩ := (mem_plan_iff h).1 hmem
  rw [currency_of_payout? hpay]
  obtain ⟨coins, -, hcoins, h0, -⟩ := payout?_eq_some_iff.1 hpay
  exact mayIssue_of_coinsFor hcoins h0

/-- In a plan exactly the currencies that issue have a payout. -/
theorem mem_currencies_of_plan {s : Stabilizer} (hs : s.Keyed) (hp : s.params.Consistent)
    {block : Block} {payouts : List Payout} (h : s.plan block = .ok payouts) {c : String} :
    c ∈ payouts.map Payout.currency ↔ ∃ coins, s.Issues block c coins := by
  simp only [List.mem_map, mem_plan_iff h]
  constructor
  · rintro ⟨p, ⟨d, -, hd⟩, rfl⟩
    rw [currency_of_payout? hd]
    obtain ⟨coins, -, hcoins, h0, hdrawn, -⟩ := payout?_eq_some_iff.1 hd
    exact ⟨coins, mayIssue_of_coinsFor hcoins h0, hcoins, h0, (drawn_ne_nil_iff hs hp).1 hdrawn⟩
  · rintro ⟨coins, ⟨i, hi, hstatus, -⟩, hcoins, h0, huser⟩
    have hc : c ∈ s.unstableCurrencies := (mem_withStatus hs).2 ⟨i, hi, hstatus⟩
    obtain ⟨p?, hp?⟩ := exists_payout?_of_plan h hc
    cases p? with
    | none =>
      obtain ⟨coins', hcoins', hnone⟩ := payout?_eq_none_iff.1 hp?
      obtain rfl := Except.ok.inj (hcoins.symm.trans hcoins')
      exact absurd hnone (not_or.2 ⟨h0, (drawn_ne_nil_iff hs hp).2 huser⟩)
    | some p => exact ⟨p, ⟨c, hc, hp?⟩, currency_of_payout? hp?⟩

theorem evenlySplit_of_payout? {s : Stabilizer} (hs : s.Keyed) (hp : s.params.Consistent)
    {block : Block} {c : String} {p : Payout} (h : s.payout? block c = .ok (some p)) :
    ∃ coins, s.coinsFor p.currency block = .ok coins ∧ s.EvenlySplit coins p := by
  obtain ⟨coins, paid, hcoins, -, hdrawn, hpaid, rfl⟩ := payout?_eq_some_iff.1 h
  have hrecipients := recipients_equalPayout s block c coins paid
  refine ⟨coins, hcoins, ?_, ?_, ?_, ?_, ?_⟩
  · rw [hrecipients]
    exact Recipients.nodup_select (Recipients.nodup_pool _ _ _) _ _ _
  · intro user huser
    rw [hrecipients] at huser
    exact (mem_pool_iff_eligible hs).1 (Recipients.mem_of_mem_select huser)
  · rw [hrecipients]
    exact length_drawn hp block c coins
  · have hreward := Issuance.reward_mem hp coins (mt List.length_eq_zero_iff.1 hdrawn)
    refine ⟨_, ?_, hreward⟩
    intro o ho
    obtain ⟨user, -, rfl⟩ := List.mem_map.1 ho
    rfl
  · rw [sum_equalPayout]
    exact toNat_of_paid? hpaid

/-- A plan that is made holds one payout for each currency that issues, by ascending currency, and
each payout splits the coins of its currency evenly. -/
theorem plan_shape {config : Config} (hc : config.checked = .ok config) {directory : Directory}
    {s : Stabilizer} (hs : Reachable config.stabilization directory s) {block : Block}
    {payouts : List Payout} (h : s.plan block = .ok payouts) :
    ((payouts.map Payout.currency).Pairwise fun a b => compare a b = .lt) ∧
    (∀ c, c ∈ payouts.map Payout.currency ↔ ∃ coins, s.Issues block c coins) ∧
    (∀ p ∈ payouts, ∃ coins, s.coinsFor p.currency block = .ok coins ∧ s.EvenlySplit coins p) ∧
    ∀ c, (Recipients.pool directory s.stableCurrencies c).Nodup ∧
      ∀ user, user ∈ Recipients.pool directory s.stableCurrencies c ↔ s.Eligible c user := by
  have hkeyed := hs.keyed
  have hparams : s.params.Consistent := hs.params_eq ▸ Config.consistent_of_checked hc
  refine ⟨pairwise_plan hkeyed h, fun c => mem_currencies_of_plan hkeyed hparams h, ?_, ?_⟩
  · intro p hmem
    obtain ⟨c, -, hpay⟩ := (mem_plan_iff h).1 hmem
    exact evenlySplit_of_payout? hkeyed hparams hpay
  · intro c
    exact ⟨Recipients.nodup_pool _ _ _, fun user => hs.directory_eq ▸ mem_pool_iff_eligible hkeyed⟩

def euroUsers : Directory :=
  ⟨fun c => if c = "OEUR" then ["ada", "bo"] else [], fun _ => [], [], fun _ => 0⟩

def dollarsOff : List Action :=
  [.update "OUSD" 1000000 1500000 1000000 0, .update "OEUR" 1000000 1000000 1000000 0]

def dollarBlock : Block := ⟨144, 86400, .zero, (∅ : Table String UInt128).insert "OUSD" 1000000⟩

theorem plan_shape_dollarBlock :
    ∃ payouts, ((new {} euroUsers).run dollarsOff).plan dollarBlock = .ok payouts ∧
      payouts.map Payout.recipients = [["bo", "ada"]] ∧
      ∀ p ∈ payouts, ∃ coins,
        ((new {} euroUsers).run dollarsOff).coinsFor p.currency dollarBlock = .ok coins ∧
          ((new {} euroUsers).run dollarsOff).EvenlySplit coins p := by
  have hplanned : (((new {} euroUsers).run dollarsOff).plan dollarBlock).toOption.map
      (·.map Payout.recipients) = some [["bo", "ada"]] := by decide +kernel
  obtain ⟨payouts, hsome, hrecipients⟩ := Option.map_eq_some_iff.1 hplanned
  have hconfig : Config.checked {} = .ok {} := rfl
  have hplan := toOption_eq_some_iff.1 hsome
  exact ⟨payouts, hplan, hrecipients,
    (plan_shape hconfig (Reachable.new.run dollarsOff) hplan).2.2.1⟩

end Stabilizer

end WaterPeg
