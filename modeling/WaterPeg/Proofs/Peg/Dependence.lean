import WaterPeg.Proofs.Oracle.Samples
import WaterPeg.Proofs.Peg.Restart

/-!
What issuance depends on. Two pegs of one configuration whose currencies stand alike pay out alike,
as long as the same users live in each currency and the observations hold the same samples: who sent
the observations, in which order, with which proof and invite, and who endorsed them, is of no
account, nor is anything else that the oracle keeps.
-/
namespace WaterPeg

/-- The pool is made of who the native users are, not of how they are listed. -/
theorem Recipients.pool_eq {d d' : Directory}
    (h : ∀ currency user, user ∈ d'.native currency ↔ user ∈ d.native currency)
    (currencies : List String) (except : String) :
    pool d' currencies except = pool d currencies except := by
  refine toList_insertMany_eq_of_mem_iff fun user => ?_
  simp only [List.mem_flatMap, h]

namespace Stabilizer

/-! ## Stabilizers that plan alike -/

/-- Stabilizers with the same parameters, standings and native users. What they remember of payouts
may differ. -/
structure PlansAlike (s s' : Stabilizer) : Prop where
  params_eq : s'.params = s.params
  standings_eq : s'.standings = s.standings
  native_iff : ∀ currency user, user ∈ s'.directory.native currency ↔
    user ∈ s.directory.native currency

namespace PlansAlike

variable {s s' : Stabilizer} (h : s.PlansAlike s')

include h

theorem exists_eq : ∃ directory history totals, s' = { s with directory, history, totals } := by
  obtain ⟨params, directory, standings, history, totals⟩ := s'
  obtain rfl : params = s.params := h.params_eq
  obtain rfl : standings = s.standings := h.standings_eq
  exact ⟨directory, history, totals, rfl⟩

theorem coinsFor_eq (currency : String) (block : Block) :
    s'.coinsFor currency block = s.coinsFor currency block := by
  obtain ⟨_, _, _, rfl⟩ := h.exists_eq
  rfl

theorem recipients_eq (count : Nat) (except : String) (block : Block) :
    s'.recipients count except block = s.recipients count except block := by
  have hpool := Recipients.pool_eq h.native_iff s.stableCurrencies except
  obtain ⟨_, _, _, rfl⟩ := h.exists_eq
  exact congrArg (Recipients.select · count block.hash except) hpool

theorem payout?_eq (block : Block) (currency : String) :
    s'.payout? block currency = s.payout? block currency := by
  unfold payout?
  simp only [h.coinsFor_eq, h.recipients_eq]
  obtain ⟨_, _, _, rfl⟩ := h.exists_eq
  rfl

theorem plan_eq (block : Block) : s'.plan block = s.plan block := by
  have hpayouts : s'.payout? block = s.payout? block := funext (h.payout?_eq block)
  unfold plan
  rw [hpayouts]
  obtain ⟨_, _, _, rfl⟩ := h.exists_eq
  rfl

theorem averages?_eq (feed : PriceFeed) (now : UInt64) (currency : String) :
    s'.averages? feed now currency = s.averages? feed now currency := by
  obtain ⟨_, _, _, rfl⟩ := h.exists_eq
  rfl

/-- Judged by one feed they go on planning alike. -/
theorem reEvaluate (hs : s.Keyed) (hs' : s'.Keyed) (height now : UInt64) (feed : PriceFeed) :
    (s.reEvaluate height now feed).2.PlansAlike (s'.reEvaluate height now feed).2 := by
  rw [reEvaluate_eq feed height now s, reEvaluate_eq feed height now s']
  refine ⟨h.params_eq, ?_, h.native_iff⟩
  refine Std.ExtTreeMap.ext_getElem? fun c => ?_
  rw [standings_reEvaluate feed height now hs, standings_reEvaluate feed height now hs',
    h.standings_eq, h.params_eq, h.averages?_eq]

/-- Recording payouts changes nothing that a plan is made of. -/
theorem create (block : Block) :
    (s.perform (.create block)).PlansAlike (s'.perform (.create block)) := by
  obtain ⟨hparams, hdirectory⟩ := perform_params_directory s (.create block)
  obtain ⟨hparams', hdirectory'⟩ := perform_params_directory s' (.create block)
  refine ⟨?_, ?_, ?_⟩
  · rw [hparams, hparams', h.params_eq]
  · rw [standings_perform_create, standings_perform_create, h.standings_eq]
  · rw [hdirectory, hdirectory']
    exact h.native_iff

end PlansAlike

end Stabilizer

namespace Peg

/-! ## The parameters of the oracle -/

structure SameSetup (p q : Peg) : Prop where
  config_eq : q.config = p.config
  oracle : p.oracle.SameSetup q.oracle

namespace SameSetup

variable {p q : Peg}

theorem refl (p : Peg) : p.SameSetup p := ⟨rfl, .refl p.oracle⟩

theorem withOracle {α : Type} (h : p.SameSetup q) {f : Oracle → Oracle.Outcome α}
    (hf : q.oracle.SameSetup (f q.oracle).2) : p.SameSetup (q.withOracle f).2 :=
  ⟨h.config_eq, hf.directory_eq.trans h.oracle.directory_eq,
    hf.params_eq.trans h.oracle.params_eq, hf.targets_eq.trans h.oracle.targets_eq⟩

theorem setStabilizer (h : p.SameSetup q) (s : Stabilizer) :
    p.SameSetup { q with stabilizer := s } := ⟨h.config_eq, h.oracle⟩

theorem setDate (h : p.SameSetup q) (d : Option Date) : p.SameSetup { q with lastDate := d } :=
  ⟨h.config_eq, h.oracle⟩

theorem setStore (h : p.SameSetup q) (s : Store) :
    p.SameSetup { q with oracle := { q.oracle with store := s } } :=
  ⟨h.config_eq, h.oracle.directory_eq, h.oracle.params_eq, h.oracle.targets_eq⟩

theorem store (h : p.SameSetup q) (batch : Batch) : p.SameSetup (q.store batch).2 := by
  unfold Peg.store
  split
  · exact h
  · exact h.setStore _

theorem settle (h : p.SameSetup q) (block : Block) : p.SameSetup (q.settle block).2 :=
  settle_snd h (fun _ s hr => hr.setStabilizer s) fun _ batch hr => hr.store batch

theorem turnDay (h : p.SameSetup q) (today : Date) (height : UInt64) :
    p.SameSetup (q.turnDay today height).2 :=
  turnDay_snd h (fun _ => h.withOracle (Oracle.clerical_rollUpDay ..).concludes.sameSetup) fun _ hq =>
    hq.setDate _

end SameSetup

/-- No request changes the configuration, or what is asked of observations. -/
theorem sameSetup_after (p : Peg) (r : Request) : p.SameSetup (p.after r) := by
  have hp := SameSetup.refl p
  cases r with
  | processBlock block =>
    have hexpired := hp.withOracle (f := fun o => o.expireInvites block.timestamp)
      (Oracle.sameSetup_commit ..)
    exact processBlock_snd hp hexpired (fun _ _ _ hq => hq.turnDay ..) fun _ hq => hq.settle block
  | prune cutoff height =>
    have hpruned := hp.withOracle (f := fun o => o.prune cutoff) (Oracle.sameSetup_commit ..)
    refine Outcome.andThen_snd hpruned fun _ => ?_
    have hdropped := hpruned.setStabilizer (p.stabilizer.prune height).2
    exact Outcome.andThen_ok_snd _ (eraseRecords_snd hdropped fun _ => hdropped.store _)
  | issueDaily currency now blockHeight =>
    exact issueDaily_snd hp fun _ _ _ hq => hq.withOracle (Oracle.sameSetup_issueForTarget ..)
  | oracle r =>
    exact hp.withOracle (f := fun o => (.ok (), o.after r)) (p.oracle.sameSetup_after r)
  | stabilizer a => exact hp.setStabilizer _
  | restore standings history totals => exact hp.setStabilizer _
  | store s => exact hp.setStore s

/-- The oracle of a peg asks of observations what the configuration says. -/
theorem Reachable.params_eq {p : Peg} (hp : Reachable p) :
    p.oracle.params = p.config.measurement := by
  induction hp with
  | opened h =>
    obtain ⟨-, ⟨_, -, horacle⟩, -⟩ := exists_of_open? h
    rw [horacle]
  | @after p r _ ih =>
    have hsetup := p.sameSetup_after r
    rw [hsetup.oracle.params_eq, hsetup.config_eq, ih]

/-! ## Pegs that pay alike -/

structure PaysAlike (p q : Peg) : Prop where
  stabilizer : p.stabilizer.PlansAlike q.stabilizer
  feed_eq : q.oracle.feed = p.oracle.feed

/-- Over a store that does not fail, a block pays out its plan. -/
theorem payouts_of_writesLeft {p : Peg} {block : Block} {today : Date} (hp : p.Sound)
    (hstore : p.oracle.store.writesLeft = none) (hdate : Date.ofTime? block.timestamp = some today) :
    (p.processBlock block).1.map BlockReport.payouts =
      ((p.reEvaluated block).2.plan block).mapError .issuance := by
  obtain ⟨opened, hresult⟩ := fst_processBlock_of_writesLeft hp hstore hdate
  rw [hresult]
  generalize (p.reEvaluated block).1 = evaluated
  cases (p.reEvaluated block).2.plan block with
  | error e => rfl
  | ok payouts => rfl

/-- Processing a block adds no observation and drops none, whether it succeeds or not. -/
theorem feed_processBlock (p : Peg) (block : Block) :
    (p.processBlock block).2.oracle.feed = p.oracle.feed := by
  refine processBlock_snd (P := fun q => q.oracle.feed = p.oracle.feed) rfl
    (judgesAlike_expireInvites p block.timestamp).feed_eq (fun today _ q hq => ?_) fun q hq => ?_
  · exact (judgesAlike_turnDay q today block.height).feed_eq.trans hq
  · refine settle_snd (P := fun q => q.oracle.feed = p.oracle.feed) hq (fun _ _ hr => hr) ?_
    intro r batch hr
    unfold store
    split
    · exact hr
    · exact hr

theorem writesLeft_store {p : Peg} (hstore : p.oracle.store.writesLeft = none) (batch : Batch) :
    (p.store batch).2.oracle.store.writesLeft = none := by
  unfold store
  rw [Store.applyBatch_of_writesLeft hstore]
  exact hstore

/-- A store that takes every write goes on to. -/
theorem writesLeft_processBlock {p : Peg} (hstore : p.oracle.store.writesLeft = none)
    (block : Block) : (p.processBlock block).2.oracle.store.writesLeft = none := by
  cases hdate : Date.ofTime? block.timestamp with
  | none =>
    rw [processBlock_of_noDate hdate]
    exact hstore
  | some today =>
    rw [processBlock_of_date hdate]
    have hopened := (store_openDay Running.editsKeep_unfailing ⟨hstore, rfl⟩ block today).1
    refine Outcome.andThen_snd (P := fun q => q.oracle.store.writesLeft = none) hopened fun _ => ?_
    refine Outcome.andThen_ok_snd (P := fun q => q.oracle.store.writesLeft = none) _ ?_
    exact settle_snd (P := fun q => q.oracle.store.writesLeft = none) hopened (fun _ _ hq => hq)
      fun _ batch hq => writesLeft_store hq batch

/-- Over stores that do not fail, a block is paid out alike, and the next one will be. -/
theorem PaysAlike.processBlock {p q : Peg} (h : p.PaysAlike q) (hp : p.Sound) (hq : q.Sound)
    (hpstore : p.oracle.store.writesLeft = none) (hqstore : q.oracle.store.writesLeft = none)
    (block : Block) :
    (q.processBlock block).1.map BlockReport.payouts =
        (p.processBlock block).1.map BlockReport.payouts ∧
      (p.processBlock block).2.PaysAlike (q.processBlock block).2 := by
  have hfeed : (q.processBlock block).2.oracle.feed = (p.processBlock block).2.oracle.feed := by
    rw [feed_processBlock, feed_processBlock, h.feed_eq]
  cases hdate : Date.ofTime? block.timestamp with
  | none =>
    rw [processBlock_of_noDate hdate, processBlock_of_noDate hdate]
    exact ⟨rfl, h⟩
  | some today =>
    -- Judged by the one feed, the stabilizers still plan alike.
    have hjudged : (p.reEvaluated block).2.PlansAlike (q.reEvaluated block).2 := by
      unfold reEvaluated
      rw [h.feed_eq]
      exact h.stabilizer.reEvaluate hp.stabilizer.keyed hq.stabilizer.keyed ..
    obtain ⟨-, hstabilizer⟩ := processBlock_of_writesLeft hp hpstore hdate
    obtain ⟨-, hstabilizer'⟩ := processBlock_of_writesLeft hq hqstore hdate
    refine ⟨?_, ?_, hfeed⟩
    · rw [payouts_of_writesLeft hp hpstore hdate, payouts_of_writesLeft hq hqstore hdate,
        hjudged.plan_eq]
    · rw [hstabilizer, hstabilizer']
      exact hjudged.create block

/-- Two pegs that a block finds alike: one configuration, the same standings, the same native users
in each currency, and the same samples in the observations. -/
structure FoundAlike (p q : Peg) : Prop where
  config_eq : q.config = p.config
  standings_eq : q.stabilizer.standings = p.stabilizer.standings
  native_iff : ∀ currency user, user ∈ q.directory.native currency ↔
    user ∈ p.directory.native currency
  samples : p.oracle.tables.SameSamples q.oracle.tables

theorem FoundAlike.paysAlike {p q : Peg} (h : p.FoundAlike q) (hp : Reachable p)
    (hq : Reachable q) : p.PaysAlike q := by
  have hpsound := hp.sound.stabilizer
  have hqsound := hq.sound.stabilizer
  refine ⟨⟨?_, h.standings_eq, ?_⟩, Oracle.feed_eq_of_sameSamples ?_ h.samples⟩
  · rw [hpsound.params_eq, hqsound.params_eq, h.config_eq]
  · rw [hpsound.directory_eq, hqsound.directory_eq]
    exact h.native_iff
  · rw [hp.params_eq, hq.params_eq, h.config_eq]

def payoutsOver (p : Peg) : List Block → List (Except PegError (List Payout))
  | [] => []
  | block :: blocks =>
    (p.processBlock block).1.map BlockReport.payouts :: (p.processBlock block).2.payoutsOver blocks

/-- Pegs that a block finds alike pay out alike ever after, as long as nothing but blocks comes
in. -/
theorem payoutsOver_of_foundAlike {p q : Peg} (hp : Reachable p) (hq : Reachable q)
    (hpstore : p.oracle.store.writesLeft = none) (hqstore : q.oracle.store.writesLeft = none)
    (h : p.FoundAlike q) (blocks : List Block) : q.payoutsOver blocks = p.payoutsOver blocks := by
  have hpays := h.paysAlike hp hq
  clear h
  induction blocks generalizing p q with
  | nil => rfl
  | cons block blocks ih =>
    obtain ⟨hpayouts, hnext⟩ := hpays.processBlock hp.sound hq.sound hpstore hqstore block
    have hrest := ih (hp.after (.processBlock block)) (hq.after (.processBlock block))
      (writesLeft_processBlock hpstore block) (writesLeft_processBlock hqstore block) hnext
    rw [payoutsOver, payoutsOver, hpayouts]
    exact congrArg _ hrest

/-- Whatever else their oracles and their histories hold, two pegs that a block finds alike pay out
the same, or fail alike, and the block leaves the same standings. -/
theorem payouts_of_foundAlike {p q : Peg} (hp : Reachable p) (hq : Reachable q)
    (hpstore : p.oracle.store.writesLeft = none) (hqstore : q.oracle.store.writesLeft = none)
    (h : p.FoundAlike q) (block : Block) :
    (q.processBlock block).1.map BlockReport.payouts =
        (p.processBlock block).1.map BlockReport.payouts ∧
      (q.processBlock block).2.stabilizer.standings =
        (p.processBlock block).2.stabilizer.standings := by
  obtain ⟨hpayouts, hplans⟩ :=
    (h.paysAlike hp hq).processBlock hp.sound hq.sound hpstore hqstore block
  exact ⟨hpayouts, hplans.stabilizer.standings_eq⟩

/-- Bo finds the same values, in another order, and is twice on the list of users. -/
def bosPeg : Peg := measuredPeg ["bo", "ada", "bo"] "bo"
  [invitesFor 2 .exchangeRate, bankRate "bo" "OUSD" "USD" 1 1100000,
    bankRate "bo" "OUSD" "USD" 0 1000000, invitesFor 2 .waterPrice,
    shopPrice "bo" "OUSD" 2 1600000, shopPrice "bo" "OUSD" 3 1500000]

theorem run_map_oracle (p : Peg) (requests : List Oracle.Request) :
    p.run (requests.map .oracle) = { p with oracle := requests.foldl Oracle.after p.oracle } := by
  induction requests generalizing p with
  | nil => rfl
  | cons r requests ih => exact ih _

/-- How the users are listed, who measures, and what the oracles are asked shows in the samples
alone. -/
theorem foundAlike_measuredPeg {users users' : List String}
    (husers : ∀ user, user ∈ users' ↔ user ∈ users) {measurer measurer' : String}
    {requests requests' : List Oracle.Request}
    (h : (measuredPeg users measurer requests).oracle.tables.SameSamples
      (measuredPeg users' measurer' requests').oracle.tables) :
    (measuredPeg users measurer requests).FoundAlike (measuredPeg users' measurer' requests') := by
  have hnative (users : List String) (measurer : String) (requests : List Oracle.Request) :
      (measuredPeg users measurer requests).directory = household users measurer := by
    rw [← (reachable_measuredPeg users measurer requests).sound.stabilizer.directory_eq]
    unfold measuredPeg
    rw [run_map_oracle]
    rfl
  refine ⟨?_, ?_, fun currency user => ?_, h⟩
  · unfold measuredPeg
    rw [run_map_oracle, run_map_oracle]
    rfl
  · unfold measuredPeg
    rw [run_map_oracle, run_map_oracle]
    rfl
  · rw [hnative, hnative]
    exact husers user

theorem payouts_of_bosPeg :
    bosPeg.oracle.tables.water.keys ≠ adasPeg.oracle.tables.water.keys ∧
      ((adasPeg.processBlock measuredBlock).1.toOption.map
        (·.payouts.map Payout.recipients)) = some [["bo", "ada"]] ∧
      (bosPeg.processBlock measuredBlock).1.map BlockReport.payouts =
        (adasPeg.processBlock measuredBlock).1.map BlockReport.payouts ∧
      (bosPeg.processBlock measuredBlock).2.stabilizer.standings =
        (adasPeg.processBlock measuredBlock).2.stabilizer.standings := by
  have hada : Reachable adasPeg := reachable_measuredPeg ..
  have hbo : Reachable bosPeg := reachable_measuredPeg ..
  have husers (user : String) : user ∈ ["bo", "ada", "bo"] ↔ user ∈ ["ada", "bo"] := by
    simp only [List.mem_cons, List.not_mem_nil, or_false]
    exact ⟨fun h => h.elim .inr id, fun h => .inr h⟩
  obtain ⟨hkeys, hwater, hrates, hstore, hstore', hpayouts⟩ :
      bosPeg.oracle.tables.water.keys ≠ adasPeg.oracle.tables.water.keys ∧
      bosPeg.oracle.tables.allWater.Perm adasPeg.oracle.tables.allWater ∧
      bosPeg.oracle.tables.allRates.Perm adasPeg.oracle.tables.allRates ∧
      adasPeg.oracle.store.writesLeft = none ∧ bosPeg.oracle.store.writesLeft = none ∧
      ((adasPeg.processBlock measuredBlock).1.toOption.map
        (·.payouts.map Payout.recipients)) = some [["bo", "ada"]] := by decide +kernel
  have hfound : adasPeg.FoundAlike bosPeg :=
    foundAlike_measuredPeg husers (Tables.sameSamples_of_perm hwater hrates)
  exact ⟨hkeys, hpayouts, payouts_of_foundAlike hada hbo hstore hstore' hfound measuredBlock⟩

end Peg

end WaterPeg
