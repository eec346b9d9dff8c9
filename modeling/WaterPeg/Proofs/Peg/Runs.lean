import WaterPeg.Peg.Blocks
import WaterPeg.Proofs.Calendar
import WaterPeg.Proofs.Oracle.Requests
import WaterPeg.Proofs.Results
import WaterPeg.Proofs.Stabilizer.Runs

/-!
Runs of the peg: its operations as data, the pegs that they lead to, and what holds of all of those.
-/
namespace WaterPeg.Peg

inductive Request
  | processBlock (block : Block)
  | prune (cutoff height : UInt64)
  | issueDaily (currency : String) (now blockHeight : UInt64)
  | oracle (r : Oracle.Request)
  | stabilizer (a : Stabilizer.Action)
  | restore (standings : List Standing) (history : List PayoutRecord) (totals : Totals)
  | store (s : Store)

def after (p : Peg) : Request → Peg
  | .processBlock block => (p.processBlock block).2
  | .prune cutoff height => (p.prune cutoff height).2
  | .issueDaily currency now blockHeight => (p.issueDaily currency now blockHeight).2
  | .oracle r => { p with oracle := p.oracle.after r }
  | .stabilizer a => { p with stabilizer := p.stabilizer.perform a }
  | .restore standings history totals =>
    { p with stabilizer := p.stabilizer.restore standings history totals }
  | .store s => { p with oracle := { p.oracle with store := s } }

def run (p : Peg) (requests : List Request) : Peg := requests.foldl after p

/-- The pegs that are opened over some store, and all that requests make of them. -/
inductive Reachable : Peg → Prop
  | opened {p : Peg} {store : Store} {directory : Directory} {config : Config}
    (h : open? store directory config = .ok p) : Reachable p
  | after {p : Peg} (r : Request) (hp : Reachable p) : Reachable (p.after r)

theorem Reachable.run {p : Peg} (hp : Reachable p) (requests : List Request) :
    Reachable (p.run requests) := by
  unfold Peg.run
  induction requests generalizing p with
  | nil => exact hp
  | cons r requests ih => exact ih (hp.after r)

/-! ## Steps -/

namespace Outcome

variable {α β γ : Type}

@[simp] theorem andThen_ok (a : α) (p : Peg) (next : α → Peg → Outcome β) :
    Outcome.andThen (.ok a, p) next = next a p := rfl

theorem andThen_congr {step : Outcome α} {f g : α → Peg → Outcome β} (h : ∀ a p, f a p = g a p) :
    step.andThen f = step.andThen g := by
  rcases step with ⟨_ | a, p⟩
  · rfl
  · exact h a p

theorem andThen_assoc (step : Outcome α) (f : α → Peg → Outcome β) (g : β → Peg → Outcome γ) :
    (step.andThen f).andThen g = step.andThen fun a p => (f a p).andThen g := by
  rcases step with ⟨_ | _, _⟩
  · rfl
  · rfl

/-- What holds after a step and is kept by the next one holds after both. -/
theorem andThen_snd {P : Peg → Prop} {step : Outcome α} {next : α → Peg → Outcome β}
    (hstep : P step.2) (hnext : ∀ a, P (next a step.2).2) : P (step.andThen next).2 := by
  rcases step with ⟨_ | a, p⟩
  · exact hstep
  · exact hnext a

/-- To reshape a result changes nothing else. -/
theorem andThen_ok_snd {P : Peg → Prop} {step : Outcome α} (f : α → β) (hstep : P step.2) :
    P (step.andThen fun a p => (.ok (f a), p)).2 := andThen_snd hstep fun _ => hstep

end Outcome

section

variable {P : Peg → Prop} {p : Peg}

theorem turnDay_snd {today : Date} {height : UInt64} (h : P p)
    (hrolled : ∀ last, P (p.withOracle fun o => o.rollUpDay last height).2)
    (hset : ∀ q : Peg, P q → P { q with lastDate := some today }) :
    P (p.turnDay today height).2 := by
  unfold turnDay
  split
  · exact hset p h
  · next last _ =>
    split
    · exact Outcome.andThen_snd (hrolled last) fun _ => hset _ (hrolled last)
    · exact h

theorem processBlock_snd {block : Block} (h : P p)
    (hexpired : P (p.withOracle fun o => o.expireInvites block.timestamp).2)
    (hturned : ∀ today, Date.ofTime? block.timestamp = some today → ∀ q, P q →
      P (q.turnDay today block.height).2)
    (hsettled : ∀ q : Peg, P q → P (q.settle block).2) : P (p.processBlock block).2 := by
  unfold processBlock
  split
  · exact h
  · next today htoday =>
    refine Outcome.andThen_snd hexpired fun _ => ?_
    have hopened := hturned today htoday _ hexpired
    refine Outcome.andThen_snd hopened fun _ => ?_
    exact Outcome.andThen_ok_snd _ (hsettled _ hopened)

theorem settle_snd {block : Block} (h : P p)
    (hset : ∀ (q : Peg) (s : Stabilizer), P q → P { q with stabilizer := s })
    (hstore : ∀ (q : Peg) (batch : Batch), P q → P (q.store batch).2) : P (p.settle block).2 := by
  unfold settle
  dsimp only
  split
  · exact hset p _ h
  · exact Outcome.andThen_ok_snd _ (hstore _ _ (hset p _ h))

theorem eraseRecords_snd {height : UInt64} (h : P p)
    (hstore : ∀ records : List PayoutRecord,
      P (p.store (records.map fun r => (RecordKind.payout.key r.id.bytes, none))).2) :
    P (p.eraseRecords height).2 := by
  unfold eraseRecords
  split
  · exact h
  · dsimp only
    split
    · exact h
    · exact hstore _

theorem issueDaily_snd {currency : String} {now blockHeight : UInt64} (h : P p)
    (hasked : ∀ target kind q, P q → P (q.withOracle fun o =>
      o.issueForTarget target kind (some currency) now blockHeight).2) :
    P (p.issueDaily currency now blockHeight).2 := by
  unfold issueDaily
  extract_lets issue
  have hissue : ∀ (kind : MeasurementKind) (q : Peg), P q → P (issue kind q).2 := by
    intro kind q hq
    -- The target is read off the oracle that is asked.
    have hsame : (q.withOracle fun o => o.issueForTarget ((o.target? kind currency now).getD 0) kind
        (some currency) now blockHeight) = q.withOracle fun o =>
          o.issueForTarget ((q.oracle.target? kind currency now).getD 0) kind (some currency) now
            blockHeight := by
      simp only [withOracle]
    have hasked := hasked ((q.oracle.target? kind currency now).getD 0) kind q hq
    rw [← hsame] at hasked
    exact Outcome.andThen_ok_snd (P := P) _ hasked
  have hprices := hissue .waterPrice p h
  have hrates := hissue .exchangeRate _ hprices
  exact Outcome.andThen_snd (P := P) hprices fun prices =>
    Outcome.andThen_ok_snd (P := P) _ hrates

end

/-! ## What requests keep -/

/-- What every request keeps: the stabilizer is one of those that its operations lead to, and the
latest date has a first and a last second. -/
structure Sound (p : Peg) : Prop where
  stabilizer : Stabilizer.Reachable p.config.stabilization p.directory p.stabilizer
  bounds : ∀ d ∈ p.lastDate, ∃ b, d.bounds? = some b

namespace Sound

variable {p : Peg}

theorem withOracle {α : Type} {f : Oracle → Oracle.Outcome α} (hp : p.Sound)
    (h : p.oracle.SameSetup (f p.oracle).2) : (p.withOracle f).2.Sound := by
  refine ⟨?_, hp.bounds⟩
  change Stabilizer.Reachable p.config.stabilization (f p.oracle).2.directory p.stabilizer
  rw [h.directory_eq]
  exact hp.stabilizer

theorem setStabilizer (hp : p.Sound) {s : Stabilizer}
    (h : Stabilizer.Reachable p.config.stabilization p.directory s) :
    { p with stabilizer := s }.Sound := ⟨h, hp.bounds⟩

theorem setStore (hp : p.Sound) (s : Store) :
    { p with oracle := { p.oracle with store := s } }.Sound := ⟨hp.stabilizer, hp.bounds⟩

theorem store (hp : p.Sound) (batch : Batch) : (p.store batch).2.Sound := by
  unfold Peg.store
  split
  · exact hp
  · exact hp.setStore _

theorem turnDay (hp : p.Sound) {time : UInt64} {today : Date}
    (htoday : Date.ofTime? time = some today) (height : UInt64) :
    (p.turnDay today height).2.Sound := by
  have hset : ∀ q : Peg, q.Sound → { q with lastDate := some today }.Sound := by
    intro q hq
    refine ⟨hq.stabilizer, ?_⟩
    rintro _ ⟨⟩
    exact Date.exists_bounds_of_ofTime? htoday
  exact turnDay_snd hp (fun last => hp.withOracle (Oracle.clerical_rollUpDay ..).concludes.sameSetup) hset

theorem settle (hp : p.Sound) (block : Block) : (p.settle block).2.Sound := by
  have hjudged : Stabilizer.Reachable p.config.stabilization p.directory (p.reEvaluated block).2 :=
    hp.stabilizer.perform (.reEvaluate block.height block.timestamp p.oracle.feed)
  unfold Peg.settle
  dsimp only
  split
  -- Without a plan the currencies stay judged.
  · exact hp.setStabilizer hjudged
  · next payouts s hs =>
    have hcreated : Stabilizer.Reachable p.config.stabilization p.directory s := by
      have h := hjudged.perform (.create block)
      rwa [Stabilizer.perform, hs] at h
    have hstored := (hp.setStabilizer hcreated).store (checkpoint s payouts)
    exact Outcome.andThen_ok_snd _ hstored

theorem processBlock (hp : p.Sound) (block : Block) : (p.processBlock block).2.Sound := by
  have hexpired := hp.withOracle (f := fun o => o.expireInvites block.timestamp)
    (Oracle.sameSetup_commit ..)
  exact processBlock_snd hp hexpired (fun today htoday q hq => hq.turnDay htoday block.height)
    fun q hq => hq.settle block

theorem eraseRecords (hp : p.Sound) (height : UInt64) : (p.eraseRecords height).2.Sound :=
  eraseRecords_snd hp fun _ => hp.store _

theorem prune (hp : p.Sound) (cutoff height : UInt64) : (p.prune cutoff height).2.Sound := by
  unfold Peg.prune
  have hpruned := hp.withOracle (f := fun o => o.prune cutoff) (Oracle.sameSetup_commit ..)
  refine Outcome.andThen_snd hpruned fun _ => ?_
  have herased := (hpruned.setStabilizer (hpruned.stabilizer.perform (.prune height))).eraseRecords
    height
  exact Outcome.andThen_ok_snd _ herased

theorem issueDaily (hp : p.Sound) (currency : String) (now blockHeight : UInt64) :
    (p.issueDaily currency now blockHeight).2.Sound :=
  issueDaily_snd hp fun _ _ _ hq => hq.withOracle (Oracle.sameSetup_issueForTarget ..)

theorem after (hp : p.Sound) (r : Request) : (p.after r).Sound := by
  cases r with
  | processBlock block => exact hp.processBlock block
  | prune cutoff height => exact hp.prune cutoff height
  | issueDaily currency now blockHeight => exact hp.issueDaily currency now blockHeight
  | oracle r => exact hp.withOracle (f := fun o => (.ok (), o.after r)) (p.oracle.sameSetup_after r)
  | stabilizer a => exact hp.setStabilizer (hp.stabilizer.perform a)
  | restore standings history totals =>
    exact hp.setStabilizer (hp.stabilizer.restore standings history totals)
  | store s => exact hp.setStore s

end Sound

/-- A peg is opened with a checked configuration, and with what the store holds. -/
theorem exists_of_open? {store : Store} {directory : Directory} {config : Config} {p : Peg}
    (h : open? store directory config = .ok p) :
    config.checked = .ok p.config ∧
      (∃ tables, Tables.load store = .ok tables ∧ p.oracle =
        ⟨store, directory, p.config.measurement, p.config.targets, tables⟩) ∧
      (∃ standings history totals, p.stabilizer =
        (Stabilizer.new p.config.stabilization directory).restore standings history totals) ∧
      p.lastDate = none := by
  obtain ⟨config', hconfig, h⟩ := bind_eq_ok_iff.1 h
  obtain ⟨oracle, horacle, h⟩ := bind_eq_ok_iff.1 h
  obtain ⟨stabilizer, hstabilizer, h⟩ := bind_eq_ok_iff.1 h
  obtain rfl := Except.ok.inj h
  obtain ⟨tables, htables, horacle⟩ := bind_eq_ok_iff.1 (mapError_eq_ok_iff.1 horacle)
  obtain ⟨standings, -, h⟩ := bind_eq_ok_iff.1 (mapError_eq_ok_iff.1 hstabilizer)
  obtain ⟨history, -, h⟩ := bind_eq_ok_iff.1 h
  obtain ⟨totals, -, h⟩ := bind_eq_ok_iff.1 h
  exact ⟨mapError_eq_ok_iff.1 hconfig, ⟨tables, htables, (Except.ok.inj horacle).symm⟩,
    ⟨standings, history, _, (Except.ok.inj h).symm⟩, rfl⟩

theorem sound_of_open? {store : Store} {directory : Directory} {config : Config} {p : Peg}
    (h : open? store directory config = .ok p) : p.Sound := by
  obtain ⟨-, ⟨tables, -, horacle⟩, ⟨standings, history, totals, hstabilizer⟩, hdate⟩ :=
    exists_of_open? h
  refine ⟨?_, fun d hd => ?_⟩
  · have hnew : Stabilizer.Reachable p.config.stabilization directory _ := .new
    rw [hstabilizer, Peg.directory, horacle]
    exact hnew.restore standings history totals
  · rw [hdate] at hd
    exact absurd hd (Option.not_mem_none d)

theorem Reachable.sound {p : Peg} (hp : Reachable p) : p.Sound := by
  induction hp with
  | opened h => exact sound_of_open? h
  | after r _ ih => exact ih.after r

def fresh (directory : Directory) (config : Config) : Peg where
  config
  oracle :=
    ⟨.empty, directory, config.measurement, config.targets, .empty⟩
  stabilizer := .new config.stabilization directory
  lastDate := none

theorem open?_empty (directory : Directory) {config : Config} (hc : config.checked = .ok config) :
    open? .empty directory config = .ok (fresh directory config) := by
  unfold open?
  rw [hc]
  rfl

theorem reachable_fresh (directory : Directory) {config : Config}
    (hc : config.checked = .ok config) : Reachable (fresh directory config) :=
  .opened (open?_empty directory hc)

/-! ## A household that measures -/

/-- Two samples make an average, and an unstable currency issues at once. -/
def quickConfig : Config where
  measurement := { minSignificantSamples := 2 }
  stabilization := { unstableBlocks := 0 }

/-- The same users live in all currencies, and one of them measures. -/
def household (users : List String) (measurer : String) : Directory :=
  ⟨fun _ => users, fun _ => [], [measurer], fun _ => 0⟩

def invitesFor (count : Nat) (kind : MeasurementKind) : Oracle.Request :=
  .issue count kind none 1750000000 1

def shopPrice (user currency : String) (sequence price : UInt64) : Oracle.Request :=
  .submitWater ⟨user, ⟨currency, price, .liter⟩, "https://shop.example/water", .userOnline,
    1750000000, 1, Invite.idOf user 1750000000 sequence⟩ 1750000060

def bankRate (user currency fiat : String) (sequence rate : UInt64) : Oracle.Request :=
  .submitRate ⟨user, ⟨currency, fiat, rate⟩, "https://bank.example/rate", .userOnline,
    1750000000, 1, Invite.idOf user 1750000000 sequence⟩ 1750000060

/-- A fresh peg to which euros are said to be on their peg, and what its oracle is then asked. -/
def measuredPeg (users : List String) (measurer : String) (requests : List Oracle.Request) : Peg :=
  ((fresh (household users measurer) quickConfig).after
    (.stabilizer (.update "OEUR" 1000000 1000000 1000000 0))).run (requests.map .oracle)

theorem reachable_measuredPeg (users : List String) (measurer : String)
    (requests : List Oracle.Request) : Reachable (measuredPeg users measurer requests) := by
  have hconfig : quickConfig.checked = .ok quickConfig := rfl
  exact ((reachable_fresh _ hconfig).after _).run _

/-- Ada measures that dollars are off their peg, prices first, and then rates. -/
def adasPeg : Peg := measuredPeg ["ada", "bo"] "ada"
  [invitesFor 2 .waterPrice, invitesFor 2 .exchangeRate,
    shopPrice "ada" "OUSD" 0 1500000, shopPrice "ada" "OUSD" 1 1600000,
    bankRate "ada" "OUSD" "USD" 2 1000000, bankRate "ada" "OUSD" "USD" 3 1100000]

def measuredBlock : Block :=
  ⟨1, 1750000120, .zero, (∅ : Table String UInt128).insert "OUSD" 1000000⟩

/-- Ada has two more invites, which she does not answer, and a block is processed. -/
def waitingPeg : Peg :=
  adasPeg.run [.oracle (invitesFor 2 .waterPrice), .processBlock measuredBlock]

def laterBlock : Block := { measuredBlock with height := 2, timestamp := 1750604800 }

end WaterPeg.Peg
