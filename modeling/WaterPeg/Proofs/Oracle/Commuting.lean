import WaterPeg.Proofs.Oracle.Slots
import WaterPeg.Proofs.Oracle.Verdicts

/-!
Submissions to different series, in either order. Each gets the same answer, and memory ends up the
same. So does the store, unless the invites of the two are counted under keys that share an id in
the store.
-/
namespace WaterPeg

/-! ## Other series -/

namespace Series

theorem knows_congr (σ : Series) {t t' : Tables} (hwater : t'.water = t.water)
    (hrates : t'.rates = t.rates) : σ.knows t' = σ.knows t := by
  cases σ with
  | water => rw [knows, knows, hwater]
  | rate => rw [knows, knows, hrates]

theorem values_congr (σ : Series) {t t' : Tables} (hwater : t'.water = t.water)
    (hrates : t'.rates = t.rates) : σ.values t' = σ.values t := by
  funext start stop
  cases σ with
  | water => simp only [values, Tables.waterPrices, hwater]
  | rate => simp only [values, Tables.exchangeRates, hrates]

variable {σ σ' : Series} {t : Tables} {e : Edit} {id id' : Digest}
  (he : e.observed? = some (σ', id'))

include he

theorem knows_apply (hid : id ≠ id') : σ.knows (t.apply e) id = σ.knows t id := by
  have hcompare : compare id' id ≠ .eq := fun heq => hid (Std.LawfulEqCmp.eq_of_compare heq).symm
  cases e with
  | putWater r | putRate r =>
    obtain ⟨-, rfl⟩ := Prod.mk.inj (Option.some.inj he)
    cases σ <;> simp [knows, Tables.apply, Std.ExtTreeMap.contains_insert, hcompare]
  | _ => cases he

/-- A new observation adds to no other series. -/
theorem values_apply (hσ : σ ≠ σ') (hnew : σ'.knows t id' = false) :
    σ.values (t.apply e) = σ.values t := by
  funext start stop
  cases e with
  | putWater r =>
    obtain ⟨rfl, rfl⟩ := Prod.mk.inj (Option.some.inj he)
    cases σ with
    | water currency =>
      have hother : (r.measured.currency == currency) = false :=
        beq_false_of_ne fun heq => hσ (congrArg water heq.symm)
      refine congrArg (List.map _) (Table.filter_values_insert hnew ?_)
      rw [hother, Bool.false_and]
    | rate => rfl
  | putRate r =>
    obtain ⟨rfl, rfl⟩ := Prod.mk.inj (Option.some.inj he)
    cases σ with
    | water => rfl
    | rate base quote =>
      have hother : (r.measured.base == base && r.measured.quote == quote) = false := by
        refine Bool.eq_false_iff.2 fun heq => hσ ?_
        obtain ⟨hbase, hquote⟩ := Bool.and_eq_true_iff.1 heq
        rw [eq_of_beq hbase, eq_of_beq hquote]
      refine congrArg (List.map _) (Table.filter_values_insert hnew ?_)
      rw [hother, Bool.false_and]
  | _ => exact nomatch he

end Series

/-- The id that the observation of a submission would have, if there is something to observe. -/
def Submission.id? {ω α : Type} [Quantity ω α] (p : MeasurementParams) (s : Submission ω) :
    Option Digest :=
  (Quantity.measure p s.offer).toOption.map fun measured => sha3 (s.preimage measured)

namespace Oracle

/-! ## The ledger of an oracle -/

def ledger (o : Oracle) : Tables × Table Bytes Bytes := (o.tables, o.store.entries)

def withLedger (o : Oracle) (l : Tables × Table Bytes Bytes) : Oracle :=
  { o with store := { o.store with entries := l.2 }, tables := l.1 }

theorem snd_commit_of_writesLeft {β : Type} {o : Oracle} (h : o.store.writesLeft = none)
    (edits : List Edit) (result : β) :
    (o.commit edits result).2 = o.withLedger (edits.foldl Recording.ledger.make o.ledger) := by
  unfold commit
  split
  · next hnil =>
    rw [List.isEmpty_iff.1 hnil]
    rfl
  · rw [Store.applyBatch_of_writesLeft h, Recording.foldl_make_ledger]
    rfl

section

variable {ω α : Type} [Quantity ω α] {o q : Oracle} {s : Submission ω} {now : UInt64}

theorem snd_submit_of_verdict (h : o.store.writesLeft = none) {v : Verdict α}
    (hv : o.verdict s now = .ok v) :
    (o.submit s now).2 =
      o.withLedger ((o.enactment s now v).foldl Recording.ledger.make o.ledger) := by
  rw [submit_of_verdict hv, snd_commit_of_writesLeft h]

theorem writesLeft_submit (o : Oracle) (s : Submission ω) (now : UInt64)
    (h : o.store.writesLeft = none) : (o.submit s now).2.store.writesLeft = none := by
  cases hv : o.verdict s now with
  | error why => rwa [submit_of_refusal hv]
  | ok v => rwa [snd_submit_of_verdict h hv]

theorem turnoutsKeyed_submit (o : Oracle) (s : Submission ω) (now : UInt64)
    (h : o.tables.TurnoutsKeyed) : (o.submit s now).2.tables.TurnoutsKeyed :=
  (concludes_submit o s now).edited.invariant (fun _ e ht => ht.apply e) (fun _ _ ht => ht) h

def parts (o : Oracle) (s : Submission ω) (now : UInt64) (v : Verdict α) : List Part :=
  [.write (Quantity.put ω (o.acceptance s now v.invite v.measured v.moments).reading),
    .write (.putInvite { v.invite with isUsed := true }), .count v.invite.turnoutKey,
    .note (Quantity.currency s.offer)]

theorem enactment_eq (o : Oracle) (s : Submission ω) (now : UInt64) (v : Verdict α) :
    o.enactment s now v =
      [Quantity.put ω (o.acceptance s now v.invite v.measured v.moments).reading,
        .putInvite { v.invite with isUsed := true }] ++
      Part.edits o.params now o.tables (.count v.invite.turnoutKey) ++
      Part.edits o.params now o.tables (.note (Quantity.currency s.offer)) := by
  unfold enactment Acceptance.edits acceptance Part.edits
  dsimp only
  cases o.tables.firstSeen.contains (Quantity.currency s.offer) <;> rfl

/-- The turnout that an acceptance counts its answer on is in the store when it is done. -/
theorem stored_turnout (hstore : o.store.writesLeft = none) (hkeys : o.tables.TurnoutsKeyed)
    {v : Verdict α} (hv : o.verdict s now = .ok v) :
    ∃ c : Turnout, c.key = v.invite.turnoutKey ∧
      (o.submit s now).2.store.entries[RecordKind.turnout.key v.invite.turnoutKey.storeId]? =
        some (encode c) := by
  have hkey : ((o.turnout v.invite.turnoutKey).recordCompleted now).key = v.invite.turnoutKey :=
    key_turnout_of_keyed hkeys _
  refine ⟨(o.turnout v.invite.turnoutKey).recordCompleted now, hkey, ?_⟩
  have hnotes : ∀ e ∈ (Part.edits o.params now o.tables (.note (Quantity.currency s.offer))).map
      Edit.entry, Store.Misses .turnout e := by
    intro e he
    obtain ⟨f, hf, rfl⟩ := List.mem_map.1 he
    refine ⟨f.slot.1, f.slot.2, ?_, f.key_entry⟩
    rw [Part.kind_of_mem_edits o.params now hf]
    nofun
  rw [snd_submit_of_verdict hstore hv, Recording.foldl_make_ledger, enactment_eq, List.map_append,
    List.foldl_append, List.map_append, List.foldl_append]
  change ((List.map Edit.entry _).foldl Store.applyEntry _)[_]? = _
  rw [Store.getElem?_foldl_applyEntry hnotes]
  change (Store.applyEntry _ (RecordKind.turnout.key
    ((o.turnout v.invite.turnoutKey).recordCompleted now).key.storeId, some _))[_]? = _
  rw [hkey, Store.getElem?_applyEntry, if_pos ⟨rfl, rfl⟩]
  rfl

variable [SeriesQuantity ω]

theorem slot_put (r : Reading α) :
    (Quantity.put ω r).slot = ((SeriesQuantity.series ω r.measured).kind, r.id.bytes) :=
  Edit.slot_of_observed? (SeriesQuantity.observed?_put r)

/-- The observation and the invite come first, and do not concern the books. -/
theorem foldl_enactment {σ : Type} (M : Recording σ) {x : σ} (hx : M.tables x = o.tables)
    (v : Verdict α) :
    (o.enactment s now v).foldl M.make x = (o.parts s now v).foldl (M.perform o.params now) x := by
  generalize hr : (o.acceptance s now v.invite v.measured v.moments).reading = r
  generalize hy : M.make (M.make x (Quantity.put ω r)) (.putInvite { v.invite with isUsed := true })
    = y
  have hbooks (a : Part) (ha : .turnout = a.kind ∨ .firstSeen = a.kind) :
      a.edits o.params now (M.tables y) = a.edits o.params now o.tables := by
    have hinvite : (Edit.putInvite { v.invite with isUsed := true }).slot.1 ≠ a.kind := by
      rcases ha with ha | ha <;> rw [← ha] <;> nofun
    have hput : (Quantity.put ω r).slot.1 ≠ a.kind := by
      rw [slot_put]
      rcases ha with ha | ha <;> rw [← ha] <;> refine (Series.kind_ne _ ?_ ?_).symm <;> nofun
    rw [← hy, M.tables_make, a.edits_apply o.params now hinvite, M.tables_make,
      a.edits_apply o.params now hput, hx]
  have hnote (c : Turnout) : Part.edits o.params now (M.tables (M.make y (.putTurnout c)))
      (.note (Quantity.currency s.offer)) =
        Part.edits o.params now o.tables (.note (Quantity.currency s.offer)) := by
    have hother : (Edit.putTurnout c).slot.1 ≠ (Part.note (Quantity.currency s.offer)).kind := by
      nofun
    rw [M.tables_make, Part.edits_apply o.params now hother, hbooks _ (Or.inr rfl)]
  have hperform : (o.parts s now v).foldl (M.perform o.params now) x =
      M.perform o.params now (M.perform o.params now y (.count v.invite.turnoutKey))
        (.note (Quantity.currency s.offer)) := by
    rw [← hy, ← hr]
    rfl
  have henact : (o.enactment s now v).foldl M.make x =
      (Part.edits o.params now o.tables (.note (Quantity.currency s.offer))).foldl M.make
        ((Part.edits o.params now o.tables (.count v.invite.turnoutKey)).foldl M.make y) := by
    rw [enactment_eq, List.foldl_append, List.foldl_append, hr, ← hy]
    rfl
  rw [hperform, henact, Recording.perform, Recording.perform, hbooks _ (Or.inl rfl)]
  exact congrArg (List.foldl M.make _) (hnote _).symm

end

/-! ## Two submissions -/

section

variable {ω ω' α α' : Type} [Quantity ω α] [Quantity ω' α'] [SeriesQuantity ω] [SeriesQuantity ω']

structure Independent (p : MeasurementParams) (s : Submission ω) (s' : Submission ω') : Prop where
  inviteId : s.inviteId ≠ s'.inviteId
  series : s.series ≠ s'.series
  id : ∀ measured measured', Quantity.measure p s.offer = .ok measured →
    Quantity.measure p s'.offer = .ok measured' →
    sha3 (s.preimage measured) ≠ sha3 (s'.preimage measured')

theorem Independent.symm {p : MeasurementParams} {s : Submission ω} {s' : Submission ω'}
    (h : Independent p s s') : Independent p s' s :=
  ⟨h.inviteId.symm, h.series.symm, fun _ _ hm hm' => (h.id _ _ hm' hm).symm⟩

variable {o : Oracle} {s : Submission ω} {s' : Submission ω'} {now : UInt64} {v : Verdict α}
  {v' : Verdict α'}

/-- Acceptances of two observations on two invites do not meet, but for the books. -/
theorem apart_parts {σ : Type} {M : Recording σ}
    (hid : sha3 (s.preimage v.measured) ≠ sha3 (s'.preimage v'.measured))
    (hinvite : v.invite.id ≠ v'.invite.id)
    (hput : v.invite.turnoutKey ≠ v'.invite.turnoutKey →
      M.Interchange v.invite.turnoutKey v'.invite.turnoutKey) :
    ∀ a ∈ o.parts s now v, ∀ b ∈ o.parts s' now v', M.Apart a b := by
  have hreadings : M.Apart
      (.write (Quantity.put ω (o.acceptance s now v.invite v.measured v.moments).reading))
      (.write (Quantity.put ω'
        (o.acceptance s' now v'.invite v'.measured v'.moments).reading)) := by
    refine .write fun hslot => hid (Digest.ext ?_)
    rw [slot_put, slot_put] at hslot
    exact (Prod.mk.inj hslot).2
  have hinvites : M.Apart (.write (.putInvite { v.invite with isUsed := true }))
      (.write (.putInvite { v'.invite with isUsed := true })) :=
    .write fun hslot => hinvite (Digest.ext (Prod.mk.inj hslot).2)
  have hcounts : M.Apart (.count v.invite.turnoutKey) (.count v'.invite.turnoutKey) := by
    by_cases hkey : v.invite.turnoutKey = v'.invite.turnoutKey
    · rw [hkey]
      exact .same _
    · exact .count hkey (hput hkey)
  have hnotes : M.Apart (.note (Quantity.currency s.offer))
      (.note (Quantity.currency s'.offer)) := by
    by_cases hcurrency : Quantity.currency s.offer = Quantity.currency s'.offer
    · rw [hcurrency]
      exact .same _
    · exact .note hcurrency
  have hbefore (r : Reading α) (b : Part) (hwater : b.kind ≠ .waterPrice)
      (hrate : b.kind ≠ .exchangeRate) : M.Apart (.write (Quantity.put ω r)) b := by
    refine .kind ?_
    change (Quantity.put ω r).slot.1 ≠ b.kind
    rw [slot_put]
    exact (Series.kind_ne _ hwater hrate).symm
  have hafter (r : Reading α') (a : Part) (hwater : a.kind ≠ .waterPrice)
      (hrate : a.kind ≠ .exchangeRate) : M.Apart a (.write (Quantity.put ω' r)) := by
    refine .kind ?_
    change a.kind ≠ (Quantity.put ω' r).slot.1
    rw [slot_put]
    exact Series.kind_ne _ hwater hrate
  intro a ha b hb
  simp only [parts, List.mem_cons, List.not_mem_nil, or_false] at ha hb
  rcases ha with rfl | rfl | rfl | rfl
  · rcases hb with rfl | rfl | rfl | rfl
    · exact hreadings
    all_goals exact hbefore _ _ nofun nofun
  · rcases hb with rfl | rfl | rfl | rfl
    · exact hafter _ _ nofun nofun
    · exact hinvites
    all_goals exact .kind nofun
  · rcases hb with rfl | rfl | rfl | rfl
    · exact hafter _ _ nofun nofun
    · exact .kind nofun
    · exact hcounts
    · exact .kind nofun
  · rcases hb with rfl | rfl | rfl | rfl
    · exact hafter _ _ nofun nofun
    · exact .kind nofun
    · exact .kind nofun
    · exact hnotes

/-- An acceptance that feeds another series decides nothing about a submission on another invite. -/
theorem verdict_enacted [LawfulQuantity ω'] (hkeyed : o.tables.Keyed)
    (h : Independent o.params s s') (hv' : o.verdict s' now = .ok v') (store : Store) :
    verdict { o with store, tables := (o.enactment s' now v').foldl Tables.apply o.tables } s now =
      o.verdict s now := by
  obtain ⟨hscreen', happraise'⟩ := verdict_eq_ok_iff.1 hv'
  obtain ⟨husable, hmeasure'⟩ := screen_of_ok hscreen'
  obtain ⟨hi, -⟩ := usableInvite_of_ok husable
  generalize ha : o.acceptance s' now v'.invite v'.measured v'.moments = a
  have henact : o.enactment s' now v' = a.edits (Quantity.put ω') := by rw [enactment, ha]
  have hobserved : (Quantity.put ω' a.reading).observed? =
      some (s'.series, sha3 (s'.preimage v'.measured)) := by
    rw [SeriesQuantity.observed?_put, ← ha, ← Submission.series_of_measure hmeasure']
    rfl
  obtain ⟨hwater, hrates⟩ := readings_acceptance a (Quantity.put ω') o.tables
  refine verdict_congr (screen_congr ?_ (usableInvite_congr ?_ ..)) fun _ measured hscreen => ?_
  · rfl
  · dsimp only
    rw [enactment, invites_acceptance, Std.ExtTreeMap.getElem?_insert, hkeyed.invites _ _ hi,
      if_neg fun heq => h.inviteId (Std.LawfulEqCmp.eq_of_compare heq).symm]
  · have hmeasure := (screen_of_ok hscreen).2
    have hnew := contains_of_appraise happraise'
    rw [SeriesQuantity.contains_readings _ v'.measured, Submission.series_of_measure hmeasure']
      at hnew
    refine appraise_congr ?_ ?_ ?_
    · rfl
    · dsimp only
      rw [henact, Series.knows_congr _ hwater hrates, Series.knows_apply hobserved
        (h.id _ _ hmeasure hmeasure')]
    · dsimp only
      rw [henact, Series.values_congr _ hwater hrates, Submission.series_of_measure hmeasure,
        Series.values_apply hobserved h.series hnew]

section

variable [LawfulQuantity ω'] (hkeyed : o.tables.Keyed) (hstore : o.store.writesLeft = none)
  (h : Independent o.params s s')

include hkeyed hstore h

theorem verdict_submit (now : UInt64) :
    (o.submit s' now).2.verdict s now = o.verdict s now := by
  cases hv' : o.verdict s' now with
  | error why => rw [submit_of_refusal hv']
  | ok v' =>
    rw [snd_submit_of_verdict hstore hv', Recording.foldl_make_ledger]
    exact verdict_enacted hkeyed h hv' _

theorem fst_submit_submit : ((o.submit s' now).2.submit s now).1 = (o.submit s now).1 := by
  refine fst_submit_congr (verdict_submit hkeyed hstore h now) ?_ ?_
  · simp [hstore]
  · simp [writesLeft_submit o s' now hstore]

/-- After two acceptances the ledger is what their parts make of it. -/
theorem snd_submit_submit (hv : o.verdict s now = .ok v) (hv' : o.verdict s' now = .ok v') :
    ((o.submit s' now).2.submit s now).2 =
      o.withLedger ((o.parts s now v).foldl (Recording.ledger.perform o.params now)
        ((o.parts s' now v').foldl (Recording.ledger.perform o.params now) o.ledger)) := by
  have hlater := (verdict_submit hkeyed hstore h now).trans hv
  rw [snd_submit_of_verdict (writesLeft_submit o s' now hstore) hlater, foldl_enactment _ rfl,
    snd_submit_of_verdict hstore hv', foldl_enactment _ rfl]
  rfl

end

/-- Both submissions are accepted, on invites that are counted under different keys which share an
id in the store. -/
def Clash (o : Oracle) (s : Submission ω) (s' : Submission ω') (now : UInt64) : Prop :=
  ∃ v v', o.verdict s now = .ok v ∧ o.verdict s' now = .ok v' ∧
    v.invite.turnoutKey ≠ v'.invite.turnoutKey ∧
    v.invite.turnoutKey.storeId = v'.invite.turnoutKey.storeId

variable [LawfulQuantity ω] [LawfulQuantity ω'] (hkeyed : o.tables.Keyed)
  (hkeys : o.tables.TurnoutsKeyed) (hstore : o.store.writesLeft = none)
  (h : Independent o.params s s')

include hkeyed hstore hkeys h

theorem submits_comm (now : UInt64) :
    ((o.submit s now).2.submit s' now).2.tables = ((o.submit s' now).2.submit s now).2.tables ∧
      (((o.submit s now).2.submit s' now).2.store = ((o.submit s' now).2.submit s now).2.store ↔
        ¬o.Clash s s' now) := by
  have hverdict := verdict_submit hkeyed hstore h now
  have hverdict' := verdict_submit hkeyed hstore h.symm now
  cases hv : o.verdict s now with
  | error why =>
    have hnone : ¬o.Clash s s' now := by
      rintro ⟨v, -, hok, -⟩
      exact nomatch hv.symm.trans hok
    rw [submit_of_refusal (hverdict.trans hv), submit_of_refusal hv]
    exact ⟨rfl, iff_of_true rfl hnone⟩
  | ok v =>
    cases hv' : o.verdict s' now with
    | error why =>
      have hnone : ¬o.Clash s s' now := by
        rintro ⟨-, v', -, hok, -⟩
        exact nomatch hv'.symm.trans hok
      rw [submit_of_refusal (hverdict'.trans hv'), submit_of_refusal hv']
      exact ⟨rfl, iff_of_true rfl hnone⟩
    | ok v' =>
      have hfirst := snd_submit_submit hkeyed hstore h.symm hv' hv
      have hsecond := snd_submit_submit hkeyed hstore h hv hv'
      obtain ⟨hi, hmeasure⟩ := screen_of_ok (verdict_eq_ok_iff.1 hv).1
      obtain ⟨hi', hmeasure'⟩ := screen_of_ok (verdict_eq_ok_iff.1 hv').1
      have hinvites : v.invite.id ≠ v'.invite.id := by
        rw [hkeyed.invites _ _ (usableInvite_of_ok hi).1,
          hkeyed.invites _ _ (usableInvite_of_ok hi').1]
        exact h.inviteId
      have hcomm {σ : Type} (M : Recording σ) (x : σ) (hx : (M.tables x).TurnoutsKeyed)
          (hput : v.invite.turnoutKey ≠ v'.invite.turnoutKey →
            M.Interchange v.invite.turnoutKey v'.invite.turnoutKey) :
          (o.parts s' now v').foldl (M.perform o.params now)
              ((o.parts s now v).foldl (M.perform o.params now) x) =
            (o.parts s now v).foldl (M.perform o.params now)
              ((o.parts s' now v').foldl (M.perform o.params now) x) :=
        Recording.foldl_perform_comm
          (apart_parts (h.id _ _ hmeasure hmeasure') hinvites hput) hx
      refine ⟨?_, ?_, ?_⟩
      · rw [hfirst, hsecond]
        dsimp only [withLedger]
        simp only [Recording.fst_foldl_perform_ledger]
        exact hcomm .memory o.tables hkeys fun hkey => Recording.interchange_memory hkey
      · rintro hsame ⟨w, w', hw, hw', hkey, hshared⟩
        obtain rfl := Except.ok.inj (hv.symm.trans hw)
        obtain rfl := Except.ok.inj (hv'.symm.trans hw')
        obtain ⟨c, hc, hstored⟩ := stored_turnout (writesLeft_submit o s' now hstore)
          (turnoutsKeyed_submit o s' now hkeys) (hverdict.trans hv)
        obtain ⟨c', hc', hstored'⟩ := stored_turnout (writesLeft_submit o s now hstore)
          (turnoutsKeyed_submit o s now hkeys) (hverdict'.trans hv')
        rw [← hsame, hshared, hstored', Option.some.injEq] at hstored
        obtain rfl := encode_injective hstored
        exact hkey (hc.symm.trans hc')
      · intro hno
        have hledger := hcomm .ledger o.ledger hkeys fun hkey =>
          Recording.interchange_ledger fun hshared => hno ⟨v, v', hv, hv', hkey, hshared⟩
        rw [hfirst, hsecond, hledger]

end

/-! ## Submissions of either kind -/

inductive Submitted
  | water (s : Submission WaterOffer)
  | rate (s : Submission ExchangeRate)

namespace Submitted

def request (now : UInt64) : Submitted → Request
  | .water s => .submitWater s now
  | .rate s => .submitRate s now

def inviteId : Submitted → Digest
  | .water s => s.inviteId
  | .rate s => s.inviteId

def series : Submitted → Series
  | .water s => s.series
  | .rate s => s.series

def id? (p : MeasurementParams) : Submitted → Option Digest
  | .water s => s.id? p
  | .rate s => s.id? p

/-- Both submissions are accepted, on invites of one kind. One of the invites is for no currency,
and the other for the one whose code is empty. -/
def Clash (o : Oracle) (a b : Submitted) (now : UInt64) : Prop :=
  ∃ i j, o.tables.invites[a.inviteId]? = some i ∧ o.tables.invites[b.inviteId]? = some j ∧
    (o.answer (a.request now)).isOk ∧ (o.answer (b.request now)).isOk ∧ i.kind = j.kind ∧
    (i.currency = none ∧ j.currency = some "" ∨ i.currency = some "" ∧ j.currency = none)

end Submitted

section

variable {ω α : Type} [Quantity ω α] {o : Oracle} {s : Submission ω} {now : UInt64}

theorem accepted_iff (hstore : o.store.writesLeft = none) {i : Invite} :
    (∃ v, o.verdict s now = .ok v ∧ v.invite = i) ↔
      o.tables.invites[s.inviteId]? = some i ∧ ((o.submit s now).1.map Answer.id).isOk := by
  constructor
  · rintro ⟨v, hv, rfl⟩
    obtain ⟨husable, -⟩ := screen_of_ok (verdict_eq_ok_iff.1 hv).1
    refine ⟨(usableInvite_of_ok husable).1, ?_⟩
    rw [submit_of_verdict hv, commit_of_room (by simp [hstore])]
    rfl
  · rintro ⟨hi, hok⟩
    cases hv : o.verdict s now with
    | error why =>
      rw [submit_of_refusal hv] at hok
      exact nomatch hok
    | ok v =>
      obtain ⟨husable, -⟩ := screen_of_ok (verdict_eq_ok_iff.1 hv).1
      exact ⟨v, rfl, Option.some.inj ((usableInvite_of_ok husable).1.symm.trans hi)⟩

variable {ω' α' : Type} [Quantity ω' α'] {s' : Submission ω'}

theorem clash_iff (hstore : o.store.writesLeft = none) :
    o.Clash s s' now ↔
      ∃ i j, o.tables.invites[s.inviteId]? = some i ∧ o.tables.invites[s'.inviteId]? = some j ∧
        ((o.submit s now).1.map Answer.id).isOk ∧ ((o.submit s' now).1.map Answer.id).isOk ∧
        i.kind = j.kind ∧
        (i.currency = none ∧ j.currency = some "" ∨ i.currency = some "" ∧ j.currency = none) := by
  have hshares (i j : Invite) : i.turnoutKey ≠ j.turnoutKey ∧
      i.turnoutKey.storeId = j.turnoutKey.storeId ↔ i.kind = j.kind ∧
        (i.currency = none ∧ j.currency = some "" ∨ i.currency = some "" ∧ j.currency = none) :=
    TurnoutKey.shares_iff
  constructor
  · rintro ⟨v, v', hv, hv', hkeys⟩
    obtain ⟨hi, hok⟩ := (accepted_iff hstore).1 ⟨v, hv, rfl⟩
    obtain ⟨hj, hok'⟩ := (accepted_iff hstore).1 ⟨v', hv', rfl⟩
    exact ⟨v.invite, v'.invite, hi, hj, hok, hok', (hshares _ _).1 hkeys⟩
  · rintro ⟨i, j, hi, hj, hok, hok', hkeys⟩
    obtain ⟨v, hv, rfl⟩ := (accepted_iff hstore).2 ⟨hi, hok⟩
    obtain ⟨v', hv', rfl⟩ := (accepted_iff hstore).2 ⟨hj, hok'⟩
    exact ⟨v, v', hv, hv', (hshares _ _).2 hkeys⟩

variable [SeriesQuantity ω] [SeriesQuantity ω']

theorem independent_of_id? {p : MeasurementParams} (hinvite : s.inviteId ≠ s'.inviteId)
    (hseries : s.series ≠ s'.series) (hid : ∀ id, s.id? p = some id → s'.id? p ≠ some id) :
    Independent p s s' where
  inviteId := hinvite
  series := hseries
  id measured measured' hmeasure hmeasure' heq := by
    refine hid (sha3 (s.preimage measured)) ?_ ?_
    · rw [Submission.id?, hmeasure]
      rfl
    · rw [Submission.id?, hmeasure', heq]
      rfl

end

theorem turnoutsKeyed_of_load {s : Store} {t : Tables} (h : Tables.load s = .ok t) :
    t.TurnoutsKeyed := by
  obtain ⟨turnouts, -, hturnouts⟩ := (Tables.loaded_of_load h).turnouts
  unfold Tables.TurnoutsKeyed
  rw [hturnouts]
  exact fun key c hc => Table.key_of_getElem?_foldl_insert Turnout.key turnouts hc

theorem turnoutsKeyed_live {store : Store} {directory : Directory} {config : Config} {o : Oracle}
    (hbegin : begin? store directory config = .ok o) (life : List Chapter) :
    (o.live life).tables.TurnoutsKeyed :=
  live_invariant (fun _ _ => turnoutsKeyed_of_load) (fun _ e h => h.apply e) (fun _ _ h => h)
    (turnoutsKeyed_of_load (tables_of_begin? hbegin).1) life

/-- What holds of two submissions in either order: their answers and what they leave in memory do
not depend on it, and what they leave in the store only does if they clash. -/
structure Submitted.Commute (o : Oracle) (a b : Submitted) (now : UInt64) : Prop where
  answer_left : (o.after (b.request now)).answer (a.request now) = o.answer (a.request now)
  answer_right : (o.after (a.request now)).answer (b.request now) = o.answer (b.request now)
  tables_eq : ((o.after (a.request now)).after (b.request now)).tables =
    ((o.after (b.request now)).after (a.request now)).tables
  store_eq_iff : ((o.after (a.request now)).after (b.request now)).store =
    ((o.after (b.request now)).after (a.request now)).store ↔ ¬Submitted.Clash o a b now

/-- Submissions on different invites that feed different series with observations of different ids
commute, but for the store where they clash: then the turnouts of the two invites stand in one place
of the store, and the later one is left there. -/
theorem submissions_commute {store : Store} {directory : Directory} {config : Config} {o : Oracle}
    (hbegin : begin? store directory config = .ok o) (life : List Chapter)
    (hstore : (o.live life).store.writesLeft = none) (now : UInt64) {a b : Submitted}
    (hinvite : a.inviteId ≠ b.inviteId) (hseries : a.series ≠ b.series)
    (hid : ∀ id, a.id? (o.live life).params = some id → b.id? (o.live life).params ≠ some id) :
    Submitted.Commute (o.live life) a b now := by
  have hkeyed := keyed_live hbegin life
  have hkeys := turnoutsKeyed_live hbegin life
  cases a <;> cases b
  all_goals
    have h := independent_of_id? hinvite hseries hid
    obtain ⟨htables, hentries⟩ := submits_comm hkeyed hkeys hstore h now
    rw [clash_iff hstore] at hentries
    exact ⟨congrArg (Except.map Answer.id) (fst_submit_submit hkeyed hstore h),
      congrArg (Except.map Answer.id) (fst_submit_submit hkeyed hstore h.symm), htables, hentries⟩

/-- Ada is invited once for no currency, and once for the empty code. -/
def adasCodes : Oracle :=
  (fresh ⟨fun _ => ["ada"], fun _ => [], ["ada"], fun _ => 0⟩ {}).live
    [.event (.request (.issue 1 .waterPrice none 1750000000 1)),
      .event (.request (.issue 1 .waterPrice (some "") 1750000000 1))]

def adasUnnamedPrice : Submission WaterOffer :=
  { adasPrice with
    offer := ⟨"", 1500000, .liter⟩
    inviteId := Invite.idOf "ada" 1750000000 1 }

theorem clash_of_adasCodes :
    Submitted.Clash adasCodes (.water adasPrice) (.water adasUnnamedPrice) 1750000060 := by
  have hfirst : (adasCodes.tables.invites[adasPrice.inviteId]?.map fun i => (i.kind, i.currency)) =
      some (.waterPrice, none) := by
    decide +kernel
  have hsecond : (adasCodes.tables.invites[adasUnnamedPrice.inviteId]?.map fun i =>
      (i.kind, i.currency)) = some (.waterPrice, some "") := by
    decide +kernel
  obtain ⟨i, hi, hkey⟩ := Option.map_eq_some_iff.1 hfirst
  obtain ⟨j, hj, hkey'⟩ := Option.map_eq_some_iff.1 hsecond
  obtain ⟨hkind, hcurrency⟩ := Prod.mk.inj hkey
  obtain ⟨hkind', hcurrency'⟩ := Prod.mk.inj hkey'
  refine ⟨i, j, hi, hj, ?_, ?_, hkind.trans hkind'.symm, Or.inl ⟨hcurrency, hcurrency'⟩⟩
  · decide +kernel
  · decide +kernel

theorem submissions_commute_of_adasCodes :
    ((adasCodes.after (.submitWater adasPrice 1750000060)).after
        (.submitWater adasUnnamedPrice 1750000060)).tables =
      ((adasCodes.after (.submitWater adasUnnamedPrice 1750000060)).after
        (.submitWater adasPrice 1750000060)).tables ∧
    ((adasCodes.after (.submitWater adasPrice 1750000060)).after
        (.submitWater adasUnnamedPrice 1750000060)).store ≠
      ((adasCodes.after (.submitWater adasUnnamedPrice 1750000060)).after
        (.submitWater adasPrice 1750000060)).store := by
  have hbegin : begin? .empty ⟨fun _ => ["ada"], fun _ => [], ["ada"], fun _ => 0⟩ {} =
      .ok (fresh ⟨fun _ => ["ada"], fun _ => [], ["ada"], fun _ => 0⟩ {}) := rfl
  have hstore : adasCodes.store.writesLeft = none := by decide +kernel
  have hinvite : adasPrice.inviteId ≠ adasUnnamedPrice.inviteId := by decide +kernel
  have hid : adasPrice.id? adasCodes.params ≠ adasUnnamedPrice.id? adasCodes.params := by
    decide +kernel
  have hcommute := submissions_commute hbegin _ hstore 1750000060 (a := .water adasPrice)
    (b := .water adasUnnamedPrice) hinvite (by decide) fun _ ha hb => hid (ha.trans hb.symm)
  exact ⟨hcommute.tables_eq, mt hcommute.store_eq_iff.1 (not_not_intro clash_of_adasCodes)⟩

end Oracle

end WaterPeg
