import WaterPeg.Proofs.Oracle.Lives
import WaterPeg.Proofs.Peg.Uncounted

/-!
Blocks that are processed twice in a row. The second time the invites have expired, the day has
turned and the payouts are recorded, so that nothing is left to do but to count the checks of the
currencies once more.
-/
namespace WaterPeg

namespace Oracle

variable {o o' : Oracle} {now : UInt64}

/-- Where invites have just expired, none are left to. -/
theorem lapsed_of_expireInvites (hkeyed : o.tables.Keyed) {count : Nat}
    (h : o.expireInvites now = (.ok count, o')) : o'.lapsed now = [] := by
  have hinvites : o'.tables.invites = (o.lapsed now).foldl
      (fun m i => m.insert i.id { i with isExpired := true }) o.tables.invites := by
    rcases commit_cases o ((o.lapsed now).map fun i => .putInvite { i with isExpired := true })
      (o.lapsed now).length with ⟨e, he⟩ | ⟨store, hstore⟩
    · exact nomatch h.symm.trans he
    · obtain ⟨-, rfl⟩ := Prod.mk.inj (h.symm.trans hstore)
      exact o.tables.invites_foldl_putInvite _ _
  refine List.filter_eq_nil_iff.2 fun i hi => ?_
  obtain ⟨id, hid⟩ := Table.mem_values.1 hi
  rw [hinvites] at hid
  rcases Table.getElem?_foldl_insert_cases Invite.id (fun i => { i with isExpired := true })
    (o.lapsed now) o.tables.invites id with ⟨j, -, -, hget⟩ | ⟨hother, hget⟩
  · obtain rfl := Option.some.inj (hid.symm.trans hget)
    simp
  · -- An open invite that was not flagged would have been among those that lapsed.
    rw [hget] at hid
    intro hopen
    refine hother i ?_ (hkeyed.invites id i hid)
    exact List.mem_filter.2 ⟨Table.mem_values.2 ⟨id, hid⟩, hopen⟩

theorem expireInvites_of_lapsed (h : o.lapsed now = []) : o.expireInvites now = (.ok 0, o) := by
  change o.commit ((o.lapsed now).map fun i => .putInvite { i with isExpired := true })
    (o.lapsed now).length = _
  rw [h]
  rfl

end Oracle

namespace Peg

/-! ## The tables of the oracle -/

theorem tables_store (p : Peg) (batch : Batch) :
    (p.store batch).2.oracle.tables = p.oracle.tables := by
  unfold store
  split <;> rfl

section

variable {P : Tables → Prop} (hP : ∀ t t', Oracle.Edited t t' → P t → P t') {p : Peg}

include hP

/-- What edits and counting on keep of the tables, every request keeps. -/
theorem tables_after (h : P p.oracle.tables) (r : Request) : P (p.after r).oracle.tables := by
  have hstore : ∀ (q : Peg) (batch : Batch), P q.oracle.tables →
      P (q.store batch).2.oracle.tables := fun q batch hq => (q.tables_store batch).symm ▸ hq
  cases r with
  | processBlock block =>
    refine processBlock_snd (P := fun q => P q.oracle.tables) h
      (hP _ _ (Oracle.edited_commit ..) h) (fun today _ q hq => ?_) fun q hq => ?_
    · exact turnDay_snd (P := fun q => P q.oracle.tables) hq
        (fun last => hP _ _ (Oracle.clerical_rollUpDay ..).concludes.edited hq) fun _ hr => hr
    · exact settle_snd (P := fun q => P q.oracle.tables) hq (fun _ _ hr => hr) hstore
  | prune cutoff height =>
    have hpruned := hP _ _ (p.oracle.edited_step (.request (.prune cutoff))) h
    refine Outcome.andThen_snd (P := fun q => P q.oracle.tables) hpruned fun _ => ?_
    refine Outcome.andThen_ok_snd (P := fun q => P q.oracle.tables) _ ?_
    exact eraseRecords_snd (P := fun q => P q.oracle.tables) hpruned fun _ => hstore _ _ hpruned
  | issueDaily currency now blockHeight =>
    refine issueDaily_snd (P := fun q => P q.oracle.tables) h fun target kind q hq => ?_
    exact hP _ _ (q.oracle.edited_step
      (.request (.issueForTarget target kind (some currency) now blockHeight))) hq
  | oracle r => exact hP _ _ (p.oracle.edited_step (.request r)) h
  | stabilizer | restore | store => exact h

end

theorem Reachable.tables_keyed {p : Peg} (hp : Reachable p) : p.oracle.tables.Keyed := by
  induction hp with
  | opened h =>
    obtain ⟨-, ⟨tables, hload, horacle⟩, -⟩ := exists_of_open? h
    rw [horacle]
    exact Tables.keyed_of_load hload
  | after r _ ih => exact tables_after (fun _ _ hedited => hedited.keyed) ih r

/-! ## Days that are open -/

theorem isEarlier_self (d : Date) : isEarlier d d = false := by
  have hself : compare d d = .eq := Std.compare_self
  unfold isEarlier
  rw [hself]
  rfl

section

variable {p q : Peg} {block : Block} {today : Date}

/-- A day turns where none was before or a later one has begun, which rolls up the latest day. -/
theorem turnDay_of_ok {height : UInt64} {rolledUp : Option Date}
    (h : p.turnDay today height = (.ok rolledUp, q)) :
    (p.lastDate = none ∧ rolledUp = none ∧ q = { p with lastDate := some today }) ∨
      (∃ last, p.lastDate = some last ∧ isEarlier last today = false ∧ rolledUp = none ∧ q = p) ∨
      ∃ last rollups o, p.lastDate = some last ∧ isEarlier last today ∧ rolledUp = some last ∧
        p.oracle.rollUpDay last height = (.ok rollups, o) ∧
        q = { p with oracle := o, lastDate := some today } := by
  unfold turnDay at h
  split at h
  · next hnone =>
    obtain ⟨hrolled, rfl⟩ := Prod.mk.inj h
    exact Or.inl ⟨hnone, (Except.ok.inj hrolled).symm, rfl⟩
  · next last hlast =>
    split at h
    · next hearlier =>
      obtain ⟨rollups, r, hday, hnext⟩ := Outcome.andThen_of_ok h
      obtain ⟨hrolled, rfl⟩ := Prod.mk.inj hnext
      obtain ⟨hresult, rfl⟩ := Prod.mk.inj hday
      exact Or.inr (Or.inr ⟨last, rollups, _, hlast, hearlier, (Except.ok.inj hrolled).symm,
        Prod.ext (mapError_eq_ok_iff.1 hresult) rfl, rfl⟩)
    · next hearlier =>
      obtain ⟨hrolled, rfl⟩ := Prod.mk.inj h
      exact Or.inr (Or.inl ⟨last, hlast, Bool.not_eq_true _ ▸ hearlier,
        (Except.ok.inj hrolled).symm, rfl⟩)

/-- The day of a block is open: no invites are left to expire, and the day has turned. -/
structure Opened (p : Peg) (block : Block) (today : Date) : Prop where
  lapsed : p.oracle.lapsed block.timestamp = []
  turned : ∃ last, p.lastDate = some last ∧ isEarlier last today = false

/-- Settling a block leaves its day open. -/
theorem Opened.keeping (h : p.Opened block today) (s : Stabilizer) (entries : Table Bytes Bytes) :
    (p.keeping s entries).Opened block today := ⟨h.lapsed, h.turned⟩

theorem Opened.openDay (h : p.Opened block today) :
    p.openDay block today = (.ok (0, none), p) := by
  obtain ⟨last, hlast, hearlier⟩ := h.turned
  have hturned : p.turnDay today block.height = (.ok none, p) := by
    unfold turnDay
    rw [hlast]
    exact if_neg (by rw [hearlier]; exact Bool.false_ne_true)
  unfold Peg.openDay
  rw [withOracle_of_ok (Oracle.expireInvites_of_lapsed h.lapsed), Outcome.andThen_ok, hturned,
    Outcome.andThen_ok]

theorem lapsed_of_withOracle (hkeyed : p.oracle.tables.Keyed) {now : UInt64} {count : Nat}
    (h : (p.withOracle fun o => o.expireInvites now) = (.ok count, q)) :
    q.oracle.lapsed now = [] := by
  obtain ⟨hresult, rfl⟩ := Prod.mk.inj h
  exact Oracle.lapsed_of_expireInvites hkeyed (Prod.ext (mapError_eq_ok_iff.1 hresult) rfl)

theorem opened_of_openDay (hkeyed : p.oracle.tables.Keyed) {opened : Nat × Option Date}
    (h : p.openDay block today = (.ok opened, q)) : q.Opened block today := by
  obtain ⟨count, r, hexpired, h⟩ := Outcome.andThen_of_ok h
  obtain ⟨rolledUp, r', hturned, h⟩ := Outcome.andThen_of_ok h
  obtain ⟨-, rfl⟩ := Prod.mk.inj h
  have hlapsed := lapsed_of_withOracle hkeyed hexpired
  rcases turnDay_of_ok hturned with ⟨-, -, rfl⟩ | ⟨last, hlast, hearlier, -, rfl⟩ |
    ⟨last, rollups, o, -, -, -, hrolled, rfl⟩
  · exact ⟨hlapsed, today, rfl, isEarlier_self today⟩
  · exact ⟨hlapsed, last, hlast, hearlier⟩
  · refine ⟨?_, today, rfl, isEarlier_self today⟩
    have hinvites := (r.oracle.clerical_rollUpDay last block.height).keeps Tables.invites
      fun e he t => t.invites_apply he.keepsInvites
    rw [hrolled] at hinvites
    change o.lapsed block.timestamp = []
    unfold Oracle.lapsed at hlapsed ⊢
    rw [hinvites]
    exact hlapsed

/-! ## Settling again -/

theorem settle_of_create_error {evaluated : Nat} {s : Stabilizer} {e : IssuanceError}
    (hjudged : p.reEvaluated block = (evaluated, s)) (hcreated : s.create block = .error e) :
    p.settle block = (.error (.issuance e), p.keeping s p.oracle.store.entries) := by
  unfold settle
  rw [hjudged]
  dsimp only
  rw [hcreated]
  rfl

theorem settle_of_create {evaluated : Nat} {s s' : Stabilizer} {payouts : List Payout}
    (hstore : p.oracle.store.writesLeft = none) (hjudged : p.reEvaluated block = (evaluated, s))
    (hcreated : s.create block = .ok (payouts, s')) :
    p.settle block = (.ok (evaluated, payouts), p.keeping s' (p.saved s' payouts)) := by
  unfold settle
  rw [hjudged]
  dsimp only
  rw [hcreated]
  dsimp only
  unfold store
  rw [Store.applyBatch_of_writesLeft hstore]
  rfl

/-- A settled block leaves a checkpoint. -/
theorem keeping_of_settle (hstore : p.oracle.store.writesLeft = none) {evaluated : Nat}
    {payouts : List Payout} (h : p.settle block = (.ok (evaluated, payouts), q)) :
    (p.reEvaluated block).2.plan block = .ok payouts ∧
      q = p.keeping q.stabilizer (p.saved q.stabilizer payouts) := by
  obtain ⟨-, hplan, -⟩ := settle_of_ok h
  obtain ⟨s, hs⟩ : ∃ s, (p.reEvaluated block).2.create block = .ok (payouts, s) :=
    ⟨_, Stabilizer.create_eq_ok_iff.2 ⟨hplan, rfl⟩⟩
  have hq : q = p.keeping s (p.saved s payouts) :=
    congrArg Prod.snd (h.symm.trans (settle_of_create hstore rfl hs))
  have hstabilizer : q.stabilizer = s := congrArg stabilizer hq
  refine ⟨hplan, ?_⟩
  rw [hstabilizer]
  exact hq

def hasAverages (p : Peg) (block : Block) (c : String) : Bool :=
  (p.stabilizer.averages? p.oracle.feed block.timestamp c).isSome

/-- What the store may hold after a block was settled, if it failed meanwhile or not: what it held
before, or a checkpoint of what was paid out. -/
def Left (p : Peg) (block : Block) (entries : Table Bytes Bytes) : Prop :=
  entries = p.oracle.store.entries ∨ ∃ payouts, (p.reEvaluated block).2.plan block = .ok payouts ∧
    entries = p.saved (p.settle block).2.stabilizer payouts

/-- Settled again over any of these, a block gives what it gave, and the currencies with averages are
counted once more. -/
theorem settle_again (hp : p.Sound) (hstore : p.oracle.store.writesLeft = none)
    {entries : Table Bytes Bytes} (hentries : p.Left block entries) :
    ∃ r, (p.keeping (p.settle block).2.stabilizer entries).settle block = ((p.settle block).1, r) ∧
      (∃ entries', r = p.keeping ((p.settle block).2.stabilizer.recount (p.hasAverages block))
        entries') ∧
      r.uncounted = (p.settle block).2.uncounted := by
  obtain ⟨hjudged, hcreated⟩ :=
    Stabilizer.settled_again hp.stabilizer.keyed (p.stabilizer_settle block)
  change (p.keeping (p.settle block).2.stabilizer entries).reEvaluated block = _ at hjudged
  change Stabilizer.create _ block = ((p.reEvaluated block).2.plan block).map _ at hcreated
  unfold Left at hentries
  cases hplan : (p.reEvaluated block).2.plan block with
  | error e =>
    have hsettle : p.settle block =
        (.error (.issuance e), p.keeping (p.reEvaluated block).2 p.oracle.store.entries) :=
      settle_of_create_error rfl (Stabilizer.create_eq_error_iff.2 hplan)
    rw [hplan] at hcreated hentries
    obtain rfl : entries = p.oracle.store.entries :=
      hentries.resolve_right fun ⟨_, hnone, _⟩ => nomatch hnone
    refine ⟨_, ?_, ⟨p.oracle.store.entries, rfl⟩, ?_⟩
    · rw [settle_of_create_error hjudged hcreated, hsettle]
      rfl
    · rw [uncounted_keeping, Stabilizer.uncounted_recount, hsettle]
      rfl
  | ok payouts =>
    obtain ⟨s, hs⟩ : ∃ s, (p.reEvaluated block).2.create block = .ok (payouts, s) :=
      ⟨_, Stabilizer.create_eq_ok_iff.2 ⟨hplan, rfl⟩⟩
    have hsettle : p.settle block =
        (.ok ((p.reEvaluated block).1, payouts), p.keeping s (p.saved s payouts)) :=
      settle_of_create hstore rfl hs
    have hstabilizer : (p.settle block).2.stabilizer = s := congrArg (·.2.stabilizer) hsettle
    rw [hstabilizer] at hjudged hcreated hentries ⊢
    rw [hplan] at hcreated
    have hagain := settle_of_create (p := p.keeping s entries) hstore hjudged hcreated
    have hrecount : (s.recount (p.hasAverages block)).uncounted = s.uncounted :=
      Stabilizer.uncounted_recount ..
    refine ⟨_, ?_, ⟨(p.keeping s entries).saved (s.recount (p.hasAverages block)) payouts, rfl⟩, ?_⟩
    · rw [hsettle]
      exact hagain
    rw [uncounted_keeping, hrecount, hsettle, uncounted_keeping]
    refine congrArg (p.keeping s.uncounted) ?_
    rcases hentries with rfl | ⟨planned, hplanned, rfl⟩
    · rw [uncounted_saved, hrecount, uncounted_saved]
      rfl
    · obtain rfl := Except.ok.inj (hplan.symm.trans hplanned)
      exact p.uncounted_saved_keeping hrecount payouts s

/-! ## Blocks -/

theorem Sound.openDay (hp : p.Sound) (hdate : Date.ofTime? block.timestamp = some today) :
    (p.openDay block today).2.Sound := by
  have hexpired := hp.withOracle (f := fun o => o.expireInvites block.timestamp)
    (Oracle.sameSetup_commit ..)
  refine Outcome.andThen_snd hexpired fun _ => ?_
  exact Outcome.andThen_ok_snd _ (hexpired.turnDay hdate block.height)

/-- Once the day of a block is open, a block has only to be settled. -/
theorem Opened.processBlock (h : p.Opened block today)
    (hdate : Date.ofTime? block.timestamp = some today) {settled : Nat × List Payout}
    (hsettled : p.settle block = (.ok settled, q)) :
    p.processBlock block = (.ok (report (0, none) settled), q) := by
  rw [processBlock_of_date hdate, h.openDay, Outcome.andThen_ok, hsettled, Outcome.andThen_ok]

/-- Over a store that does not fail, a processed block that is processed again pays out the same, and
lets no invites expire and rolls up no day. It leaves the history, the totals and the tables of the
oracle as they are, and has the currencies with averages counted once more. But for the counts, all
that is in memory and in the store stays the same. -/
theorem processBlock_again (hp : Reachable p) (hstore : p.oracle.store.writesLeft = none)
    {report : BlockReport} (h : p.processBlock block = (.ok report, q)) :
    ∃ r, q.processBlock block = (.ok { report with expired := 0, rolledUp := none }, r) ∧
      r.stabilizer.history = q.stabilizer.history ∧ r.stabilizer.totals = q.stabilizer.totals ∧
      r.oracle.tables = q.oracle.tables ∧ r.lastDate = q.lastDate ∧
      (∀ c : String, r.stabilizer.standings[c]? = q.stabilizer.standings[c]?.map fun i =>
        if q.hasAverages block c then i.recounted else i) ∧
      r.uncounted = q.uncounted := by
  obtain ⟨today, opened, p', hdate, hopened, hsettled⟩ := processBlock_of_ok h
  have hday : p'.Opened block today := opened_of_openDay hp.tables_keyed hopened
  have hsound : p'.Sound := by
    have hsound := hp.sound.openDay hdate
    rwa [hopened] at hsound
  have hstore' : p'.oracle.store.writesLeft = none := by
    obtain ⟨_, _, _, hopened', hwrites⟩ :=
      openDay_of_writesLeft hstore hp.sound.bounds block today
    obtain ⟨-, rfl⟩ := Prod.mk.inj (hopened.symm.trans hopened')
    exact hwrites
  have hstabilizer : (p'.settle block).2.stabilizer = q.stabilizer := by rw [hsettled]
  -- What the first time leaves is what the second one starts from.
  obtain ⟨hplan, hkept⟩ := keeping_of_settle hstore' hsettled
  obtain ⟨r, hagain, ⟨entries, hr⟩, huncounted⟩ := settle_again hsound hstore'
    (Or.inr ⟨report.payouts, hplan, rfl⟩)
  rw [hstabilizer, ← hkept, hsettled] at hagain
  rw [hstabilizer] at hr
  rw [hsettled] at huncounted
  have hopen : q.Opened block today := by
    rw [hkept]
    exact hday.keeping _ _
  have hfresh : p'.hasAverages block = q.hasAverages block := by
    have hparams : q.stabilizer.params = p'.stabilizer.params := by
      rw [← hstabilizer, stabilizer_settle, (Stabilizer.perform_params_directory _ _).1]
      unfold reEvaluated
      rw [Stabilizer.reEvaluate_eq]
    unfold hasAverages Stabilizer.averages?
    rw [hparams, hkept]
    rfl
  refine ⟨r, hopen.processBlock hdate hagain, ?_⟩
  rw [hr]
  refine ⟨rfl, rfl, ?_, ?_, fun c => ?_, hr ▸ huncounted⟩
  · rw [hkept]
    rfl
  · rw [hkept]
    rfl
  · rw [← hfresh]
    exact Stabilizer.standings_recount ..

/-- A processed block is processed again: dollars, which have averages, are counted once more, and
euros are not. -/
theorem processBlock_again_measuredBlock :
    ∃ report q r, adasPeg.processBlock measuredBlock = (.ok report, q) ∧
      report.payouts.map Payout.recipients = [["bo", "ada"]] ∧
      q.processBlock measuredBlock = (.ok { report with expired := 0, rolledUp := none }, r) ∧
      r.stabilizer.totals = q.stabilizer.totals ∧
      ["OUSD", "OEUR"].map (q.stabilizer.standings[·]?.map Standing.checkCount) =
        [some 1, some 1] ∧
      ["OUSD", "OEUR"].map (r.stabilizer.standings[·]?.map Standing.checkCount) =
        [some 2, some 1] := by
  obtain ⟨hpayouts, hstore, hcounts, hfresh⟩ :
      (adasPeg.processBlock measuredBlock).1.toOption.map (·.payouts.map Payout.recipients) =
        some [["bo", "ada"]] ∧
      adasPeg.oracle.store.writesLeft = none ∧
      ["OUSD", "OEUR"].map ((adasPeg.processBlock measuredBlock).2.stabilizer.standings[·]?.map
        Standing.checkCount) = [some 1, some 1] ∧
      ["OUSD", "OEUR"].map ((adasPeg.processBlock measuredBlock).2.hasAverages measuredBlock) =
        [true, false] := by decide +kernel
  obtain ⟨report, hsome, hrecipients⟩ := Option.map_eq_some_iff.1 hpayouts
  have hok : adasPeg.processBlock measuredBlock =
      (.ok report, (adasPeg.processBlock measuredBlock).2) := by
    rw [← toOption_eq_some_iff.1 hsome]
  obtain ⟨r, hagain, -, htotals, -, -, hstandings, -⟩ :=
    processBlock_again (reachable_measuredPeg ..) hstore hok
  refine ⟨report, _, r, hok, hrecipients, hagain, htotals, hcounts, ?_⟩
  simp only [List.map_cons, List.map_nil, List.cons.injEq, and_true] at hcounts hfresh ⊢
  obtain ⟨hdollars, heuros⟩ := hcounts
  obtain ⟨hfreshDollars, hfreshEuros⟩ := hfresh
  rw [hstandings, hstandings, hfreshDollars, hfreshEuros]
  obtain ⟨i, hi, hcount⟩ := Option.map_eq_some_iff.1 hdollars
  obtain ⟨j, hj, hcount'⟩ := Option.map_eq_some_iff.1 heuros
  rw [hi, hj]
  exact ⟨by simp [Standing.recounted, hcount], by simp [hcount']⟩

end

end Peg

end WaterPeg
