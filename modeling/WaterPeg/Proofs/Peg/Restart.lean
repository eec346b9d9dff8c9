import WaterPeg.Proofs.Peg.Checkpoint
import WaterPeg.Proofs.Stabilizer.Histories

/-!
Opening a peg again over its store. While the store never fails and blocks are processed, the peg that
is opened again differs from the running one in the latest date, in the place of the next invite, and
in the records of payouts that were issued more than once.
-/
namespace WaterPeg.Peg
open Stabilizer (SameButHistory Alike)

/-! ## Runs of a node -/

/-- What a node asks of its peg: measurements that are not about the empty code, blocks that are
processed, and pruning. -/
def Request.Served (p : Peg) : Request → Prop
  | .processBlock block => ∃ report, (p.processBlock block).1 = .ok report
  | .issueDaily currency _ _ => currency ≠ ""
  | .oracle r => r.Named
  | .prune _ _ => True
  | .stabilizer _ | .restore _ _ _ | .store _ => False

def Served (p : Peg) : List Request → Prop
  | [] => True
  | r :: requests => r.Served p ∧ (p.after r).Served requests

/-- A block whose payouts are all recorded as they are issued, where `f` is all that is seen of a
record. -/
def Request.Steady {β : Type} (f : PayoutRecord → β) (p : Peg) : Request → Prop
  | .processBlock block => ∀ report, (p.processBlock block).1 = .ok report →
    ∀ x ∈ report.payouts,
      (p.processBlock block).2.stabilizer.history[x.id]?.map f = some (f x.record)
  | .prune _ _ | .issueDaily _ _ _ | .oracle _ | .stabilizer _ | .restore _ _ _ | .store _ => True

def Steady {β : Type} (f : PayoutRecord → β) (p : Peg) : List Request → Prop
  | [] => True
  | r :: requests => r.Steady f p ∧ (p.after r).Steady f requests

theorem Served.append {p : Peg} {requests requests' : List Request} (h : p.Served requests)
    (h' : (p.run requests).Served requests') : p.Served (requests ++ requests') := by
  induction requests generalizing p with
  | nil => exact h'
  | cons r requests ih => exact ⟨h.1, ih h.2 h'⟩

theorem served_map_oracle {p : Peg} {requests : List Oracle.Request}
    (h : ∀ r ∈ requests, r.Named) : p.Served (requests.map .oracle) := by
  induction requests generalizing p with
  | nil => trivial
  | cons r requests ih => exact ⟨h r List.mem_cons_self, ih fun r' hr' => h r' (.tail _ hr')⟩

theorem steady_oracle_append {β : Type} {f : PayoutRecord → β} {p : Peg}
    {requests : List Oracle.Request} {requests' : List Request}
    (h : (p.run (requests.map .oracle)).Steady f requests') :
    p.Steady f (requests.map .oracle ++ requests') := by
  induction requests generalizing p with
  | nil => exact h
  | cons r requests ih => exact ⟨trivial, ih h⟩

/-! ## The oracle of a running peg -/

structure Running (directory : Directory) (config : Config) (p : Peg) : Prop where
  config_eq : p.config = config
  directory_eq : p.oracle.directory = directory
  params_eq : p.oracle.params = config.measurement
  targets_eq : p.oracle.targets = config.targets
  writes : p.oracle.store.writesLeft = none
  reads : p.oracle.store.readsFail = false
  mirrored : p.oracle.Mirrored

namespace Running

variable {directory : Directory} {config : Config} {p : Peg} (h : Running directory config p)

theorem editsKeep_unfailing {readsFail : Bool} :
    Oracle.EditsKeep fun s => s.writesLeft = none ∧ s.readsFail = readsFail := by
  intro edits s s' ⟨hwrites, hreads⟩ happly
  rw [Store.applyBatch_of_writesLeft hwrites] at happly
  obtain rfl := Except.ok.inj happly
  exact ⟨hwrites, hreads⟩

include h

theorem oracle {r : Oracle.Request} (hr : r.Named) :
    Running directory config { p with oracle := p.oracle.after r } := by
  have hsetup := p.oracle.sameSetup_after r
  obtain ⟨hwrites, hreads⟩ := Oracle.store_after editsKeep_unfailing ⟨h.writes, h.reads⟩ r
  exact ⟨h.config_eq, hsetup.directory_eq.trans h.directory_eq,
    hsetup.params_eq.trans h.params_eq, hsetup.targets_eq.trans h.targets_eq, hwrites, hreads,
    h.mirrored.after hr⟩

theorem store {batch : Batch} (hbatch : AboutStabilizer batch) :
    Running directory config (p.store batch).2 := by
  unfold Peg.store
  rw [Store.applyBatch_of_writesLeft h.writes]
  exact ⟨h.config_eq, h.directory_eq, h.params_eq, h.targets_eq, h.writes, h.reads,
    h.mirrored.batch hbatch⟩

theorem setStabilizer (s : Stabilizer) : Running directory config { p with stabilizer := s } :=
  ⟨h.config_eq, h.directory_eq, h.params_eq, h.targets_eq, h.writes, h.reads, h.mirrored⟩

theorem setDate (d : Option Date) : Running directory config { p with lastDate := d } :=
  ⟨h.config_eq, h.directory_eq, h.params_eq, h.targets_eq, h.writes, h.reads, h.mirrored⟩

theorem turnDay (today : Date) (height : UInt64) :
    Running directory config (p.turnDay today height).2 :=
  turnDay_snd h (fun last => h.oracle (r := .rollUpDay last height) trivial) fun _ hq => hq.setDate _

theorem settle (block : Block) : Running directory config (p.settle block).2 := by
  unfold Peg.settle
  dsimp only
  split
  · exact h.setStabilizer _
  · next payouts s _ =>
    exact Outcome.andThen_ok_snd _
      ((h.setStabilizer s).store (aboutStabilizer_checkpoint s payouts))

theorem processBlock (block : Block) : Running directory config (p.processBlock block).2 := by
  have hexpired := h.oracle (r := .expireInvites block.timestamp) trivial
  exact processBlock_snd h hexpired (fun today _ q hq => hq.turnDay today block.height) fun q hq =>
    hq.settle block

theorem eraseRecords (height : UInt64) : Running directory config (p.eraseRecords height).2 :=
  eraseRecords_snd h fun records => h.store (aboutStabilizer_erase records)

theorem prune (cutoff height : UInt64) : Running directory config (p.prune cutoff height).2 := by
  have hdropped := h.oracle (r := .prune cutoff) trivial
  unfold Peg.prune
  refine Outcome.andThen_snd (P := Running directory config) hdropped fun _ => ?_
  exact Outcome.andThen_ok_snd _ ((hdropped.setStabilizer _).eraseRecords height)

theorem issueDaily {currency : String} (hcurrency : currency ≠ "") (now blockHeight : UInt64) :
    Running directory config (p.issueDaily currency now blockHeight).2 := by
  refine issueDaily_snd h fun target kind q hq => ?_
  exact hq.oracle (r := .issueForTarget target kind (some currency) now blockHeight)
    (by simpa [Oracle.Request.Named] using hcurrency)

theorem after {r : Request} (hr : r.Served p) : Running directory config (p.after r) := by
  cases r with
  | processBlock block => exact h.processBlock block
  | prune cutoff height => exact h.prune cutoff height
  | issueDaily currency now blockHeight => exact h.issueDaily hr now blockHeight
  | oracle r => exact h.oracle hr
  | stabilizer | restore | store => exact hr.elim

end Running

/-! ## What the store holds of a running peg -/

theorem stabilizer_issueDaily (p : Peg) (currency : String) (now blockHeight : UInt64) :
    (p.issueDaily currency now blockHeight).2.stabilizer = p.stabilizer :=
  issueDaily_snd (P := fun q => q.stabilizer = p.stabilizer) rfl fun _ _ _ hq => hq

theorem stabilizer_store (p : Peg) (batch : Batch) : (p.store batch).2.stabilizer = p.stabilizer := by
  unfold store
  split <;> rfl

theorem stabilizer_eraseRecords (p : Peg) (height : UInt64) :
    (p.eraseRecords height).2.stabilizer = p.stabilizer :=
  eraseRecords_snd (P := fun q => q.stabilizer = p.stabilizer) rfl fun _ => stabilizer_store p _

/-- The store holds the stabilizer of a running peg but for its history. -/
structure Restartable (directory : Directory) (config : Config) (p : Peg) (kept : Stabilizer) :
    Prop where
  running : Running directory config p
  sound : p.Sound
  holds : Holds p.oracle.store.entries kept
  same : p.stabilizer.SameButHistory kept

namespace Restartable

variable {directory : Directory} {config : Config} {p : Peg} {kept : Stabilizer}

theorem setup_stabilizer {p : Peg} (hrunning : Running directory config p) (hsound : p.Sound) :
    p.stabilizer.params = config.stabilization ∧ p.stabilizer.directory = directory := by
  rw [hsound.stabilizer.params_eq, hsound.stabilizer.directory_eq, hrunning.config_eq]
  exact ⟨rfl, hrunning.directory_eq⟩

variable (h : Restartable directory config p kept)

include h

theorem setup_kept : kept.params = config.stabilization ∧ kept.directory = directory := by
  rw [h.same.params_eq, h.same.directory_eq]
  exact setup_stabilizer h.running h.sound

theorem processBlock {block : Block} {report : BlockReport} {q : Peg}
    (hok : p.processBlock block = (.ok report, q)) :
    Restartable directory config q (kept.overwrite q.stabilizer report.payouts) := by
  have hrunning := h.running.processBlock block
  have hsound := h.sound.processBlock block
  rw [hok] at hrunning hsound
  obtain ⟨hparams, hdirectory⟩ := setup_stabilizer hrunning hsound
  refine ⟨hrunning, hsound, h.holds.processBlock_of_ok h.sound hok, ?_⟩
  refine Stabilizer.sameButHistory_overwrite (h.setup_kept.1.trans hparams.symm)
    (h.setup_kept.2.trans hdirectory.symm) hsound.stabilizer.keyed (fun c hc => ?_) report.payouts
  -- A judged currency stays tracked.
  rw [h.same.standings_eq] at hc
  rw [(stabilizer_of_processBlock hok).2, Stabilizer.foldl_record_eq]
  change ((p.stabilizer.reEvaluate block.height block.timestamp
    p.oracle.feed).2.standings[c]?).isSome
  rw [Stabilizer.standings_reEvaluate _ _ _ h.sound.stabilizer.keyed, if_pos (Or.inl hc)]
  unfold Standing.judged?
  split
  · rfl
  · rw [Option.isSome_map]
    exact hc

theorem eraseRecords (height : UInt64) : (p.eraseRecords height).1 = .ok () := by
  obtain ⟨records, hrecords, -⟩ := h.holds.stabilizer.history.filed.records h.running.reads
  change p.oracle.store.records PayoutRecord .payout = .ok records at hrecords
  unfold Peg.eraseRecords
  rw [hrecords]
  dsimp only
  split
  · rfl
  · unfold Peg.store
    rw [Store.applyBatch_of_writesLeft h.running.writes]

theorem prune (cutoff height : UInt64) :
    (p.prune cutoff height).2.stabilizer = (p.stabilizer.prune height).2 ∧
      Holds (p.prune cutoff height).2.oracle.store.entries (kept.prune height).2 := by
  obtain ⟨count, o, hpruned⟩ : ∃ count o, p.oracle.prune cutoff = (.ok count, o) := by
    obtain ⟨store, -, hcommit⟩ := Oracle.commit_of_writesLeft p.oracle _ _ h.running.writes
    exact ⟨_, _, hcommit⟩
  -- Dropping observations leaves the stored records, so the pruned stabilizer differs from what is
  -- stored in its history alone.
  have hdropped : Restartable directory config
      { p with oracle := o, stabilizer := (p.stabilizer.prune height).2 } kept := by
    have hrunning := h.running.oracle (r := .prune cutoff) trivial
    have hsound := h.sound.withOracle (f := fun o => o.prune cutoff) (Oracle.sameSetup_commit ..)
    have hholds := Oracle.store_after (editsKeep_holds kept) h.holds (.prune cutoff)
    have ho : p.oracle.after (.prune cutoff) = o := congrArg Prod.snd hpruned
    rw [ho] at hrunning hholds
    rw [withOracle_of_ok hpruned] at hsound
    refine ⟨hrunning.setStabilizer _,
      hsound.setStabilizer (hsound.stabilizer.perform (.prune height)), hholds, kept.history, ?_⟩
    obtain ⟨history, rfl⟩ := h.same
    rfl
  have herased := hdropped.eraseRecords height
  have hstabilizer := stabilizer_eraseRecords
    { p with oracle := o, stabilizer := (p.stabilizer.prune height).2 } height
  have hholds := (hdropped.holds.eraseRecords height).resolve_left fun ⟨_, he, _⟩ =>
    nomatch he.symm.trans herased
  unfold Peg.prune
  rw [withOracle_of_ok hpruned, Outcome.andThen_ok]
  dsimp only
  generalize Peg.eraseRecords _ height = step at herased hstabilizer hholds ⊢
  obtain ⟨result, q⟩ := step
  obtain rfl : result = .ok () := herased
  exact ⟨hstabilizer, hholds.2⟩

theorem after {r : Request} (hr : r.Served p) :
    ∃ kept', Restartable directory config (p.after r) kept' ∧
      ∀ (β : Type) (f : PayoutRecord → β), (∀ r r', f r = f r' → r.blockHeight = r'.blockHeight) →
        Alike f p.stabilizer.history kept.history → r.Steady f p →
          Alike f (p.after r).stabilizer.history kept'.history := by
  have hrunning := h.running.after hr
  have hsound := h.sound.after r
  cases r with
  | processBlock block =>
    obtain ⟨report, hreport⟩ := hr
    have hok : p.processBlock block = (.ok report, (p.processBlock block).2) := by rw [← hreport]
    refine ⟨_, h.processBlock hok, fun β f _ halike hsteady => ?_⟩
    exact Stabilizer.alike_overwrite halike (fun id => history_of_processBlock hok)
      (hsteady report hreport)
  | prune cutoff height =>
    obtain ⟨hstabilizer, hholds⟩ := h.prune cutoff height
    refine ⟨(kept.prune height).2, ⟨hrunning, hsound, hholds, ?_⟩, fun β f hf halike _ => ?_⟩
    · change (p.prune cutoff height).2.stabilizer.SameButHistory _
      rw [hstabilizer]
      exact h.same.prune height
    · change Alike f (p.prune cutoff height).2.stabilizer.history _
      rw [hstabilizer]
      exact halike.prune hf height
  | issueDaily currency now blockHeight =>
    have hstabilizer := stabilizer_issueDaily p currency now blockHeight
    refine ⟨kept, ⟨hrunning, hsound, ?_, ?_⟩, fun _ f _ halike _ => ?_⟩
    · exact store_issueDaily (editsKeep_holds kept) h.holds currency now blockHeight
    · change (p.issueDaily currency now blockHeight).2.stabilizer.SameButHistory kept
      rw [hstabilizer]
      exact h.same
    · change Alike f (p.issueDaily currency now blockHeight).2.stabilizer.history kept.history
      rw [hstabilizer]
      exact halike
  | oracle r =>
    have hholds := Oracle.store_after (editsKeep_holds kept) h.holds r
    exact ⟨kept, ⟨hrunning, hsound, hholds, h.same⟩, fun _ _ _ halike _ => halike⟩
  | stabilizer | restore | store => exact hr.elim

theorem run {requests : List Request} (hrequests : p.Served requests) :
    ∃ kept', Restartable directory config (p.run requests) kept' ∧
      ∀ (β : Type) (f : PayoutRecord → β), (∀ r r', f r = f r' → r.blockHeight = r'.blockHeight) →
        Alike f p.stabilizer.history kept.history → p.Steady f requests →
          Alike f (p.run requests).stabilizer.history kept'.history := by
  induction requests generalizing p kept with
  | nil => exact ⟨kept, h, fun _ _ _ halike _ => halike⟩
  | cons r requests ih =>
    obtain ⟨kept', h', halike'⟩ := h.after hrequests.1
    obtain ⟨kept'', h'', halike''⟩ := ih h' hrequests.2
    refine ⟨kept'', h'', fun β f hf halike hsteady => ?_⟩
    exact halike'' β f hf (halike' β f hf halike hsteady.1) hsteady.2

/-- Opening the peg again gives the stored stabilizer and the tables of the oracle. -/
theorem open? (hconfig : config.checked = .ok config) :
    ∃ q, Peg.open? p.oracle.store directory config = .ok q ∧ q.stabilizer = kept ∧
      q.oracle.store = p.oracle.store ∧ p.oracle.SameSetup q.oracle ∧
      q.oracle.tables = { p.oracle.tables with
        nextSequence := Tables.sequenceAfter p.oracle.tables.invites } := by
  have hload := h.holds.stabilizer.load rfl h.running.reads
  rw [h.setup_kept.1, h.setup_kept.2] at hload
  refine ⟨⟨config, ⟨p.oracle.store, directory, config.measurement, config.targets, _⟩, kept, none⟩,
    ?_, rfl, rfl, ⟨h.running.directory_eq.symm, h.running.params_eq.symm,
    h.running.targets_eq.symm⟩, rfl⟩
  unfold Peg.open? Oracle.begin?
  rw [hconfig, h.running.mirrored.load TurnoutKey.storeId_inj h.running.reads]
  change (loadStabilizer p.oracle.store config.stabilization directory).mapError PegError.store >>=
    _ = _
  rw [hload]
  rfl

end Restartable

/-! ## The next block -/

def issuance (r : BlockReport) : Nat × Nat × List Payout := (r.expired, r.evaluated, r.payouts)

theorem expired_of_openDay {p q : Peg} {block : Block} {today : Date} {expired : Nat}
    {rolledUp : Option Date} (h : p.openDay block today = (.ok (expired, rolledUp), q)) :
    expired = (p.oracle.lapsed block.timestamp).length := by
  obtain ⟨count, r, hcount, h⟩ := Outcome.andThen_of_ok h
  obtain ⟨day, r', -, h⟩ := Outcome.andThen_of_ok h
  obtain ⟨rfl, -⟩ := Prod.mk.inj (Except.ok.inj (Prod.mk.inj h).1)
  have hresult : (p.oracle.expireInvites block.timestamp).1 = .ok count :=
    mapError_eq_ok_iff.1 (congrArg Prod.fst hcount)
  rcases Oracle.commit_cases p.oracle _ (p.oracle.lapsed block.timestamp).length with
    ⟨e, he⟩ | ⟨store, hstore⟩
  · exact nomatch (congrArg Prod.fst he).symm.trans hresult
  · exact Except.ok.inj (hresult.symm.trans (congrArg Prod.fst hstore))

theorem stabilizer_settle (p : Peg) (block : Block) :
    (p.settle block).2.stabilizer = (p.reEvaluated block).2.perform (.create block) := by
  unfold settle Stabilizer.perform
  dsimp only
  split
  · next hs => rw [hs]
  · next payouts s hs =>
    rw [hs]
    dsimp only
    exact Outcome.andThen_ok_snd (P := fun q => q.stabilizer = s) _ (stabilizer_store _ _)

/-- Over a store that does not fail, all that a block does to the stabilizer is to judge by the feed
and to create payouts. -/
theorem processBlock_of_writesLeft {p : Peg} {block : Block} {today : Date} (hp : p.Sound)
    (hstore : p.oracle.store.writesLeft = none) (hdate : Date.ofTime? block.timestamp = some today) :
    (p.processBlock block).1.map issuance =
        (((p.reEvaluated block).2.plan block).mapError .issuance).map (fun payouts =>
          ((p.oracle.lapsed block.timestamp).length, (p.reEvaluated block).1, payouts)) ∧
      (p.processBlock block).2.stabilizer = (p.reEvaluated block).2.perform (.create block) := by
  obtain ⟨expired, rolledUp, q, hopened, hq⟩ := openDay_of_writesLeft hstore hp.bounds block today
  have halike : p.JudgesAlike q := by
    have h := judgesAlike_openDay p block today
    rwa [hopened] at h
  have hsettle := fst_settle_of_writesLeft hq block
  have hstabilizer := stabilizer_settle q block
  rw [halike.reEvaluated_eq] at hsettle hstabilizer
  rw [processBlock_of_date hdate, hopened, Outcome.andThen_ok, expired_of_openDay hopened]
  generalize q.settle block = settled at hsettle hstabilizer ⊢
  obtain ⟨result, r⟩ := settled
  obtain rfl : result = _ := hsettle
  cases (p.reEvaluated block).2.plan block with
  | error e => exact ⟨rfl, hstabilizer⟩
  | ok payouts => exact ⟨rfl, hstabilizer⟩

structure IssuesAlike (p q : Peg) : Prop where
  sound : p.Sound
  sound' : q.Sound
  writes : p.oracle.store.writesLeft = none
  writes' : q.oracle.store.writesLeft = none
  same : p.stabilizer.SameButHistory q.stabilizer
  feed_eq : q.oracle.feed = p.oracle.feed
  lapsed_eq : ∀ now, q.oracle.lapsed now = p.oracle.lapsed now

theorem IssuesAlike.processBlock {p q : Peg} (h : p.IssuesAlike q) (block : Block) :
    (q.processBlock block).1.map issuance = (p.processBlock block).1.map issuance ∧
      (q.processBlock block).2.stabilizer.standings =
        (p.processBlock block).2.stabilizer.standings ∧
      ((∀ id, id ∈ q.stabilizer.history ↔ id ∈ p.stabilizer.history) →
        (q.processBlock block).2.stabilizer.totals = (p.processBlock block).2.stabilizer.totals) ∧
      (q.stabilizer.history = p.stabilizer.history →
        (q.processBlock block).2.stabilizer = (p.processBlock block).2.stabilizer) := by
  cases hdate : Date.ofTime? block.timestamp with
  | none =>
    rw [processBlock_of_noDate hdate, processBlock_of_noDate hdate]
    exact ⟨rfl, h.same.standings_eq, fun _ => h.same.totals_eq, h.same.eq_of_history⟩
  | some today =>
    have hjudged : (p.reEvaluated block).2.SameButHistory (q.reEvaluated block).2 := by
      unfold reEvaluated
      rw [h.feed_eq]
      exact h.same.reEvaluate h.sound.stabilizer.keyed ..
    have hevaluated : (q.reEvaluated block).1 = (p.reEvaluated block).1 := by
      unfold reEvaluated
      rw [h.feed_eq]
      exact h.same.evaluated_eq ..
    obtain ⟨hresult, hstabilizer⟩ := processBlock_of_writesLeft h.sound h.writes hdate
    obtain ⟨hresult', hstabilizer'⟩ := processBlock_of_writesLeft h.sound' h.writes' hdate
    rw [hresult, hresult', hstabilizer, hstabilizer', h.lapsed_eq, hevaluated, hjudged.plan_eq]
    refine ⟨rfl, ?_, fun hids => ?_, fun hhistory => ?_⟩
    · rw [Stabilizer.standings_perform_create, Stabilizer.standings_perform_create]
      exact hjudged.standings_eq
    · refine (hjudged.perform_create ?_ block).totals_eq
      unfold reEvaluated
      rw [Stabilizer.reEvaluate_eq, Stabilizer.reEvaluate_eq _ _ _ p.stabilizer]
      exact hids
    · have hreEvaluated : q.reEvaluated block = p.reEvaluated block := by
        unfold reEvaluated
        rw [h.same.eq_of_history hhistory, h.feed_eq]
      rw [hreEvaluated]

theorem restartable_fresh (directory : Directory) {config : Config}
    (hconfig : config.checked = .ok config) :
    Restartable directory config (fresh directory config) (.new config.stabilization directory) :=
  ⟨⟨rfl, rfl, rfl, rfl, rfl, rfl, Tables.mirrored_empty⟩,
    (reachable_fresh directory hconfig).sound, holds_empty .., ∅, rfl⟩

theorem eq_fresh_of_open? {directory : Directory} {config : Config} {p : Peg}
    (h : open? .empty directory config = .ok p) :
    config.checked = .ok config ∧ p = fresh directory config := by
  obtain ⟨config', hchecked, -⟩ := bind_eq_ok_iff.1 h
  have hconfig : config.checked = .ok config := by
    have hchecked := mapError_eq_ok_iff.1 hchecked
    unfold Config.checked at hchecked ⊢
    split at hchecked
    · exact nomatch hchecked
    · rfl
  exact ⟨hconfig, Except.ok.inj (h.symm.trans (open?_empty directory hconfig))⟩

/-- A peg that began over an empty store that never fails can be opened again at any time, and the
next block is reported alike, apart from the day that was rolled up, and leaves the same standings. It
leaves the same totals as long as no payout was issued again at another height, and the same history
as long as none was issued again with another record. -/
theorem processBlock_of_reopened {directory : Directory} {config : Config} {p : Peg}
    (hopen : open? .empty directory config = .ok p) {requests : List Request}
    (hrequests : p.Served requests) :
    ∃ q, open? (p.run requests).oracle.store directory config = .ok q ∧ ∀ block,
      (q.processBlock block).1.map issuance = ((p.run requests).processBlock block).1.map issuance ∧
      (q.processBlock block).2.stabilizer.standings =
        ((p.run requests).processBlock block).2.stabilizer.standings ∧
      (p.Steady PayoutRecord.blockHeight requests →
        (q.processBlock block).2.stabilizer.totals =
          ((p.run requests).processBlock block).2.stabilizer.totals) ∧
      (p.Steady id requests →
        (q.processBlock block).2.stabilizer = ((p.run requests).processBlock block).2.stabilizer) := by
  obtain ⟨hconfig, rfl⟩ := eq_fresh_of_open? hopen
  obtain ⟨kept, h, halike⟩ := (restartable_fresh directory hconfig).run hrequests
  obtain ⟨q, hq, rfl, hstore, hsetup, htables⟩ := h.open? hconfig
  have hissues : (Peg.run _ requests).IssuesAlike q := {
    sound := h.sound
    sound' := sound_of_open? hq
    writes := h.running.writes
    writes' := hstore ▸ h.running.writes
    same := h.same
    feed_eq := hsetup.feed_eq (by rw [htables]) (by rw [htables])
    lapsed_eq now := by
      unfold Oracle.lapsed
      rw [htables] }
  refine ⟨q, hq, fun block => ?_⟩
  obtain ⟨hresult, hstandings, htotals, hstabilizer⟩ := hissues.processBlock block
  refine ⟨hresult, hstandings, fun hsteady => htotals ?_, fun hsteady => hstabilizer ?_⟩
  · exact (halike _ PayoutRecord.blockHeight (fun _ _ => id) (fun _ => rfl) hsteady).mem_iff
  · exact (halike _ id (fun _ _ => congrArg _) (fun _ => rfl) hsteady).eq_of_id

/-- Ada measures dollars off their peg and euros on it, and leaves one invite open. -/
def adasReadings : List Oracle.Request :=
  [invitesFor 5 .waterPrice, invitesFor 4 .exchangeRate,
    shopPrice "ada" "OUSD" 0 1500000, shopPrice "ada" "OUSD" 1 1600000,
    shopPrice "ada" "OEUR" 2 1000000, shopPrice "ada" "OEUR" 3 1000000,
    bankRate "ada" "OUSD" "USD" 5 1000000, bankRate "ada" "OUSD" "USD" 6 1100000,
    bankRate "ada" "OEUR" "EUR" 7 1000000, bankRate "ada" "OEUR" "EUR" 8 1000000]

def adasHome : Peg := fresh (household ["ada", "bo"] "ada") quickConfig

/-- A block pays for what was measured, and old data is pruned. -/
def adasRequests : List Request :=
  adasReadings.map .oracle ++ [.processBlock measuredBlock, .prune 1740000000 1]

theorem processBlock_of_adasRequests :
    (adasHome.run adasRequests).stabilizer.history.size = 1 ∧
      (((adasHome.run adasRequests).processBlock laterBlock).1.toOption.map fun r =>
        (r.expired, r.evaluated, r.payouts.map Payout.recipients)) =
          some (1, 2, [["bo", "ada"]]) ∧
      ∃ q, open? (adasHome.run adasRequests).oracle.store (household ["ada", "bo"] "ada")
          quickConfig = .ok q ∧
        (q.processBlock laterBlock).1.map issuance =
          ((adasHome.run adasRequests).processBlock laterBlock).1.map issuance ∧
        (q.processBlock laterBlock).2.stabilizer =
          ((adasHome.run adasRequests).processBlock laterBlock).2.stabilizer := by
  have hconfig : quickConfig.checked = .ok quickConfig := rfl
  have hopen : open? .empty (household ["ada", "bo"] "ada") quickConfig = .ok adasHome :=
    open?_empty _ hconfig
  -- What the first block pays is recorded as it is issued, so that nothing is lost by reopening.
  obtain ⟨hfirst, hsize, hlater⟩ :
      (((adasHome.run (adasReadings.map .oracle)).processBlock measuredBlock).1.toOption.map
        fun r => r.payouts.all fun x =>
          ((adasHome.run (adasReadings.map .oracle)).processBlock
            measuredBlock).2.stabilizer.history[x.id]? == some x.record) = some true ∧
      (adasHome.run adasRequests).stabilizer.history.size = 1 ∧
      (((adasHome.run adasRequests).processBlock laterBlock).1.toOption.map fun r =>
        (r.expired, r.evaluated, r.payouts.map Payout.recipients)) =
          some (1, 2, [["bo", "ada"]]) := by decide +kernel
  obtain ⟨report, hsome, hrecorded⟩ := Option.map_eq_some_iff.1 hfirst
  have hreport := toOption_eq_some_iff.1 hsome
  have hnamed : ∀ r ∈ adasReadings, r.Named := by
    unfold adasReadings invitesFor shopPrice bankRate
    simp [Oracle.Request.Named]
  have hserved : adasHome.Served adasRequests :=
    (served_map_oracle hnamed).append ⟨⟨report, hreport⟩, trivial, trivial⟩
  have hsteady : adasHome.Steady id adasRequests := by
    refine steady_oracle_append ⟨fun report' hreport' x hx => ?_, trivial, trivial⟩
    obtain rfl := Except.ok.inj (hreport.symm.trans hreport')
    rw [eq_of_beq (List.all_eq_true.1 hrecorded x hx)]
    rfl
  obtain ⟨q, hq, hnext⟩ := processBlock_of_reopened hopen hserved
  obtain ⟨hresult, -, -, hstabilizer⟩ := hnext laterBlock
  exact ⟨hsize, hlater, q, hq, hresult, hstabilizer hsteady⟩

end WaterPeg.Peg
