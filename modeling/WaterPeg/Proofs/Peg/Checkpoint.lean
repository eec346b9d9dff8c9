import WaterPeg.Proofs.Peg.Stored

/-!
Processed blocks as checkpoints. A block stores all standings, the totals and its own payouts, so
that records which came or went by other ways between blocks do not reach the store.
-/
namespace WaterPeg.Peg

/-! ## Steps that succeed -/

theorem Outcome.andThen_of_ok {α β : Type} {step : Outcome α} {next : α → Peg → Outcome β} {b : β}
    {q : Peg} (h : step.andThen next = (.ok b, q)) :
    ∃ a p, step = (.ok a, p) ∧ next a p = (.ok b, q) := by
  rcases step with ⟨e | a, p⟩
  · exact nomatch h
  · exact ⟨a, p, rfl, h⟩

section

variable {p q : Peg} {block : Block}

theorem settle_of_ok {evaluated : Nat} {payouts : List Payout}
    (h : p.settle block = (.ok (evaluated, payouts), q)) :
    evaluated = (p.reEvaluated block).1 ∧ (p.reEvaluated block).2.plan block = .ok payouts ∧
      ∃ store, p.oracle.store.applyBatch (checkpoint q.stabilizer payouts) = .ok store ∧
        q = { p with
          oracle := { p.oracle with store }
          stabilizer := payouts.foldl Stabilizer.record (p.reEvaluated block).2 } := by
  unfold settle at h
  dsimp only at h
  split at h
  · exact nomatch h
  · next planned s hs =>
    obtain ⟨⟨⟩, r, hstore, hnext⟩ := Outcome.andThen_of_ok h
    obtain ⟨hresult, rfl⟩ := Prod.mk.inj hnext
    obtain ⟨rfl, rfl⟩ := Prod.mk.inj (Except.ok.inj hresult)
    obtain ⟨hplan, rfl⟩ := Stabilizer.create_eq_ok_iff.1 hs
    refine ⟨rfl, hplan, ?_⟩
    unfold Peg.store at hstore
    split at hstore
    · exact nomatch hstore
    · next store hbatch =>
      obtain ⟨-, rfl⟩ := Prod.mk.inj hstore
      exact ⟨store, hbatch, rfl⟩

/-- A block is processed in two parts: the day is opened, and the payouts are settled. -/
theorem processBlock_of_ok {report : BlockReport} (h : p.processBlock block = (.ok report, q)) :
    ∃ today opened r, Date.ofTime? block.timestamp = some today ∧
      p.openDay block today = (.ok opened, r) ∧
      r.settle block = (.ok (report.evaluated, report.payouts), q) := by
  cases hdate : Date.ofTime? block.timestamp with
  | none =>
    rw [processBlock_of_noDate hdate] at h
    exact nomatch h
  | some today =>
    rw [processBlock_of_date hdate] at h
    obtain ⟨opened, r, hopened, h⟩ := Outcome.andThen_of_ok h
    obtain ⟨settled, q', hsettled, hnext⟩ := Outcome.andThen_of_ok h
    obtain ⟨hreport, rfl⟩ := Prod.mk.inj hnext
    obtain rfl := Except.ok.inj hreport
    exact ⟨today, opened, r, rfl, hopened, hsettled⟩

theorem oracle_settle_of_error {e : PegError} (h : (p.settle block).1 = .error e) :
    (p.settle block).2.oracle = p.oracle := by
  unfold settle at h ⊢
  dsimp only at h ⊢
  split at h
  · rfl
  · rcases Outcome.andThen_of_error h with ⟨hstore, hkept⟩ | ⟨_, _, -, h, -⟩
    · rw [hkept, (store_of_error hstore).2]
    · exact nomatch h

end

/-! ## The store -/

section

variable {P : Store → Prop} (hP : Oracle.EditsKeep P) {p : Peg} (h : P p.oracle.store)

include hP h

theorem store_openDay (block : Block) (today : Date) :
    P (p.openDay block today).2.oracle.store := by
  have hexpired : P (p.withOracle fun o => o.expireInvites block.timestamp).2.oracle.store :=
    Oracle.store_commit hP h ..
  refine Outcome.andThen_snd (P := fun q => P q.oracle.store) hexpired fun _ => ?_
  refine Outcome.andThen_ok_snd (P := fun q => P q.oracle.store) _ ?_
  exact turnDay_snd (P := fun q => P q.oracle.store) hexpired
    (fun last => (Oracle.clerical_rollUpDay _ last block.height).concludes.store hP hexpired) fun _ hq => hq

theorem store_issueDaily (currency : String) (now blockHeight : UInt64) :
    P (p.issueDaily currency now blockHeight).2.oracle.store :=
  issueDaily_snd (P := fun q => P q.oracle.store) h fun _ _ _ hq =>
    Oracle.store_issueForTarget hP hq ..

end

/-- No edit of the oracle changes what is stored of the stabilizer. -/
theorem editsKeep_holds (s : Stabilizer) : Oracle.EditsKeep fun store => Holds store.entries s :=
  Oracle.editsKeep_entries (Q := fun entries => Holds entries s) fun e _ h => h.edit e

namespace Holds

variable {p q : Peg} {s : Stabilizer} (h : Holds p.oracle.store.entries s)

include h

theorem openDay (block : Block) (today : Date) :
    Holds (p.openDay block today).2.oracle.store.entries s :=
  store_openDay (editsKeep_holds s) h block today

/-- A processed block is a checkpoint of the stabilizer and of its own payouts. -/
theorem processBlock_of_ok {block : Block} {report : BlockReport} (hp : p.Sound)
    (hok : p.processBlock block = (.ok report, q)) :
    Holds q.oracle.store.entries (s.overwrite q.stabilizer report.payouts) := by
  have hq : q.stabilizer.Keyed := by
    have hsound := hp.processBlock block
    rw [hok] at hsound
    exact hsound.stabilizer.keyed
  obtain ⟨today, opened, r, -, hopened, hsettled⟩ := Peg.processBlock_of_ok hok
  have hr : Holds r.oracle.store.entries s := by
    have hday := h.openDay block today
    rwa [hopened] at hday
  obtain ⟨-, -, store, hbatch, hpeg⟩ := settle_of_ok hsettled
  have hentries : q.oracle.store.entries =
      (Peg.checkpoint q.stabilizer report.payouts).foldl Store.applyEntry r.oracle.store.entries := by
    rw [hpeg] at hbatch ⊢
    exact (Store.applyBatch_of_ok hbatch).1
  rw [hentries]
  exact hr.checkpoint hq report.payouts

theorem processBlock_of_error {block : Block} {e : PegError}
    (herror : (p.processBlock block).1 = .error e) :
    Holds (p.processBlock block).2.oracle.store.entries s := by
  cases hdate : Date.ofTime? block.timestamp with
  | none =>
    rw [processBlock_of_noDate hdate]
    exact h
  | some today =>
    have hday := h.openDay block today
    rw [processBlock_of_date hdate] at herror ⊢
    rcases Outcome.andThen_of_error herror with ⟨-, hkept⟩ | ⟨opened, r, hopened, hsettle, hkept⟩
    · rw [hkept]
      exact hday
    · rw [hopened] at hday
      rw [hkept]
      rcases Outcome.andThen_of_error hsettle with ⟨herror, hkept⟩ | ⟨_, _, -, hsettle, -⟩
      · rw [hkept, oracle_settle_of_error herror]
        exact hday
      · exact nomatch hsettle

theorem eraseRecords (height : UInt64) :
    (∃ e, (p.eraseRecords height).1 = .error e ∧
        Holds (p.eraseRecords height).2.oracle.store.entries s) ∨
      (p.eraseRecords height).1 = .ok () ∧
        Holds (p.eraseRecords height).2.oracle.store.entries (s.prune height).2 := by
  cases hresult : (p.eraseRecords height).1 with
  | error e =>
    left
    rw [(eraseRecords_of_error hresult).2]
    exact ⟨e, rfl, h⟩
  | ok =>
    right
    refine ⟨rfl, ?_⟩
    unfold Peg.eraseRecords at hresult ⊢
    split at hresult
    · exact nomatch hresult
    · next records hrecords =>
      have herased := h.erase rfl hrecords height
      dsimp only at hresult ⊢
      split at hresult
      · next hnone =>
        rw [List.isEmpty_iff.1 hnone] at herased
        rw [if_pos hnone]
        exact herased
      · next hsome =>
        rw [if_neg hsome]
        unfold Peg.store at hresult ⊢
        split at hresult
        · exact nomatch hresult
        · next store hbatch =>
          dsimp only
          rw [(Store.applyBatch_of_ok hbatch).1]
          exact herased

/-- Pruning that succeeds prunes what is stored. -/
theorem prune (cutoff height : UInt64) :
    (∃ e, (p.prune cutoff height).1 = .error e ∧
        Holds (p.prune cutoff height).2.oracle.store.entries s) ∨
      ∃ counts, (p.prune cutoff height).1 = .ok counts ∧
        Holds (p.prune cutoff height).2.oracle.store.entries (s.prune height).2 := by
  have hdropped : Holds (p.withOracle fun o => o.prune cutoff).2.oracle.store.entries s :=
    Oracle.store_commit (editsKeep_holds s) h ..
  unfold Peg.prune
  generalize (p.withOracle fun o => o.prune cutoff) = step at hdropped ⊢
  obtain ⟨_ | readings, q⟩ := step
  · exact Or.inl ⟨_, rfl, hdropped⟩
  · rw [Outcome.andThen_ok]
    dsimp only
    have herased := eraseRecords (p := { q with stabilizer := (q.stabilizer.prune height).2 }) hdropped
      height
    generalize Peg.eraseRecords _ height = step at herased ⊢
    obtain ⟨result, r⟩ := step
    rcases herased with ⟨e, rfl, hr⟩ | ⟨rfl, hr⟩
    · exact Or.inl ⟨e, rfl, hr⟩
    · exact Or.inr ⟨_, rfl, hr⟩

end Holds

/-! ## Pegs that alone write to their store -/

/-- The pegs that are opened over an empty store, and all that requests make of them. The store may
begin to fail, and cease to, at any time, but nobody else writes to it. -/
inductive Attended (directory : Directory) (config : Config) : Peg → Prop
  | opened {p : Peg} {store : Store} (hempty : store.entries = ∅)
    (h : open? store directory config = .ok p) : Attended directory config p
  | after {p : Peg} (r : Request) (hr : ∀ s, r = .store s → s.entries = p.oracle.store.entries)
    (hp : Attended directory config p) : Attended directory config (p.after r)

namespace Attended

variable {directory : Directory} {config : Config} {p : Peg} (hp : Attended directory config p)

include hp

theorem reachable : Reachable p := by
  induction hp with
  | opened _ h => exact .opened h
  | after r _ _ ih => exact ih.after r

/-- The store of such a peg can be loaded, and holds some stabilizer. -/
theorem holds : ∃ s, Holds p.oracle.store.entries s ∧ s.directory = directory ∧
    ∃ config', config.checked = .ok config' ∧ s.params = config'.stabilization := by
  induction hp with
  | @opened p store hempty h =>
    obtain ⟨hconfig, ⟨_, -, horacle⟩, -⟩ := exists_of_open? h
    refine ⟨.new p.config.stabilization directory, ?_, rfl, p.config, hconfig, rfl⟩
    rw [horacle, hempty]
    exact holds_empty ..
  | @after p r hr hp ih =>
    obtain ⟨s, hs, hdirectory, hparams⟩ := ih
    cases r with
    | processBlock block =>
      change ∃ s, Holds (p.processBlock block).2.oracle.store.entries s ∧ _
      cases hresult : (p.processBlock block).1 with
      | error e => exact ⟨s, hs.processBlock_of_error hresult, hdirectory, hparams⟩
      | ok report =>
        exact ⟨_, hs.processBlock_of_ok hp.reachable.sound (Prod.ext hresult rfl), hdirectory,
          hparams⟩
    | prune cutoff height =>
      rcases hs.prune cutoff height with ⟨-, -, h⟩ | ⟨-, -, h⟩
      · exact ⟨s, h, hdirectory, hparams⟩
      · exact ⟨_, h, hdirectory, hparams⟩
    | issueDaily => exact ⟨s, store_issueDaily (editsKeep_holds s) hs .., hdirectory, hparams⟩
    | oracle r => exact ⟨s, Oracle.store_after (editsKeep_holds s) hs r, hdirectory, hparams⟩
    | stabilizer | restore => exact ⟨s, hs, hdirectory, hparams⟩
    | store store =>
      refine ⟨s, ?_, hdirectory, hparams⟩
      change Holds store.entries s
      rw [hr store rfl]
      exact hs

theorem run {requests : List Request} (hrequests : ∀ r ∈ requests, ∀ s, r ≠ .store s) :
    Attended directory config (p.run requests) := by
  induction requests generalizing p with
  | nil => exact hp
  | cons r requests ih =>
    refine ih (hp.after r fun s hs => ?_) fun r' hr' => hrequests r' (List.mem_cons_of_mem r hr')
    exact absurd hs (hrequests r List.mem_cons_self s)

end Attended

section

variable {directory : Directory} {config : Config} {p q : Peg} {block : Block} {report : BlockReport}

/-- What a processed block leaves of the stabilizer: judged, with its payouts recorded. -/
theorem stabilizer_of_processBlock (h : p.processBlock block = (.ok report, q)) :
    (p.reEvaluated block).2.plan block = .ok report.payouts ∧
      q.stabilizer = report.payouts.foldl Stabilizer.record (p.reEvaluated block).2 := by
  obtain ⟨today, opened, r, -, hopened, hsettled⟩ := processBlock_of_ok h
  have halike := judgesAlike_openDay p block today
  rw [hopened] at halike
  obtain ⟨-, hplan, store, -, hpeg⟩ := settle_of_ok hsettled
  rw [hpeg, ← halike.reEvaluated_eq]
  exact ⟨hplan, rfl⟩

/-- What no payout of the block is about is in the history after it as before it. -/
theorem history_of_processBlock (h : p.processBlock block = (.ok report, q)) {id : Digest}
    (hid : ∀ x ∈ report.payouts, x.id ≠ id) :
    q.stabilizer.history[id]? = p.stabilizer.history[id]? := by
  rw [(stabilizer_of_processBlock h).2, Stabilizer.getElem?_history_foldl_record hid]
  unfold reEvaluated
  rw [Stabilizer.reEvaluate_eq]

/-- A processed block stores the totals and all standings, over those that were stored before. Of the
history it stores its own payouts alone: what the store had before is kept, and what else came into
memory, or left it, does not show in the store. A peg that had stored its whole history has stored it
again if it recorded the payouts of the block just as they were issued. -/
theorem open?_of_processBlock (hp : Attended directory config p)
    (h : p.processBlock block = (.ok report, q)) :
    ∃ before after,
      open? ⟨p.oracle.store.entries, none, false⟩ directory config = .ok before ∧
      open? ⟨q.oracle.store.entries, none, false⟩ directory config = .ok after ∧
      after.stabilizer.totals = q.stabilizer.totals ∧
      (∀ c : String, after.stabilizer.standings[c]? =
        (q.stabilizer.standings[c]?).or before.stabilizer.standings[c]?) ∧
      after.stabilizer.history = report.payouts.foldl
        (fun (t : Table Digest PayoutRecord) x => t.insert x.id x.record)
        before.stabilizer.history ∧
      (before.stabilizer.history = p.stabilizer.history →
        (∀ x ∈ report.payouts, q.stabilizer.history[x.id]? = some x.record) →
          after.stabilizer.history = q.stabilizer.history) := by
  obtain ⟨s, hs, rfl, config', hconfig, hparams⟩ := hp.holds
  have hsound := hp.reachable.sound
  obtain ⟨before, hbefore, rfl⟩ := hs.open? ⟨p.oracle.store.entries, none, false⟩ rfl rfl hconfig
    hparams
  obtain ⟨after, hafter, heq⟩ := (hs.processBlock_of_ok hsound h).open?
    ⟨q.oracle.store.entries, none, false⟩ rfl rfl hconfig hparams
  have hkeyed : q.stabilizer.Keyed := by
    have hq := hsound.processBlock block
    rw [h] at hq
    exact hq.stabilizer.keyed
  refine ⟨before, after, hbefore, hafter, ?_, fun c => ?_, ?_, fun hhistory hrecorded => ?_⟩
  · rw [heq]
    rfl
  · rw [heq]
    exact before.stabilizer.standings_overwrite hkeyed report.payouts c
  · rw [heq]
    rfl
  · rw [heq]
    refine Std.ExtTreeMap.ext_getElem? fun id => ?_
    rcases Table.getElem?_foldl_insert_cases Payout.id Payout.record report.payouts
      before.stabilizer.history id with ⟨x, hx, rfl, hget⟩ | ⟨hother, hget⟩
    · exact hget.trans (hrecorded x hx).symm
    · rw [history_of_processBlock h hother, ← hhistory]
      exact hget

end

def createdPeg : Peg := dollarPeg.after (.stabilizer (.create Stabilizer.dollarBlock))

def quietBlock : Block := { Stabilizer.dollarBlock with height := 145, volumes := ∅ }

theorem open?_of_quietBlock :
    ∃ after, open? ⟨(createdPeg.processBlock quietBlock).2.oracle.store.entries, none, false⟩
        Stabilizer.euroUsers {} = .ok after ∧
      after.stabilizer.totals.payouts = 1 ∧ after.stabilizer.history.size = 0 ∧
      (createdPeg.processBlock quietBlock).2.stabilizer.history.size = 1 := by
  have hconfig : Config.checked {} = .ok {} := rfl
  have hfresh : Attended Stabilizer.euroUsers {} (fresh Stabilizer.euroUsers {}) :=
    .opened rfl (open?_empty Stabilizer.euroUsers hconfig)
  have hcreated : Attended Stabilizer.euroUsers {} createdPeg := by
    have hrequests : ∀ r ∈ Stabilizer.dollarsOff.map Request.stabilizer, ∀ s, r ≠ .store s := by
      simp [Stabilizer.dollarsOff]
    refine (hfresh.run hrequests).after (.stabilizer (.create Stabilizer.dollarBlock)) ?_
    rintro s ⟨⟩
  have hprocessed : (createdPeg.processBlock quietBlock).1.toOption.map (·.payouts) = some [] := by
    decide +kernel
  obtain ⟨report, hsome, hpayouts⟩ := Option.map_eq_some_iff.1 hprocessed
  have hok : createdPeg.processBlock quietBlock =
      (.ok report, (createdPeg.processBlock quietBlock).2) := by
    rw [← toOption_eq_some_iff.1 hsome]
  obtain ⟨before, after, hbefore, hafter, htotals, -, hhistory, -⟩ :=
    open?_of_processBlock hcreated hok
  obtain rfl : before = fresh Stabilizer.euroUsers {} :=
    Except.ok.inj (hbefore.symm.trans (open?_empty Stabilizer.euroUsers hconfig))
  refine ⟨after, hafter, ?_, ?_, by decide +kernel⟩
  · rw [htotals]
    decide +kernel
  · rw [hhistory, hpayouts]
    rfl

end WaterPeg.Peg
