import WaterPeg.Proofs.Oracle.Mirror
import WaterPeg.Proofs.Peg.Failures
import WaterPeg.Proofs.Stabilizer.Histories

/-!
What the store holds of a stabilizer. It is a stabilizer itself: the one that is loaded from the
store. A processed block and pruning change it, and nothing that the oracle does.
-/
namespace WaterPeg
open Store

namespace Stabilizer

def standingsShelf : Shelf Standing String Standing where
  kind := .standing
  key := Standing.currency
  value := id
  storeId := Bytes.ofString
  Proper _ := True

def historyShelf : Shelf PayoutRecord Digest PayoutRecord :=
  .ofDigest .payout PayoutRecord.id fun _ => True

structure StoredIn (s : Stabilizer) (entries : Table Bytes Bytes) : Prop where
  standings : standingsShelf.Mirrors s.standings entries
  history : historyShelf.Mirrors s.history entries
  totals : entries[RecordKind.totals.key Peg.totalsId]? = some (encode s.totals) ∨
    entries[RecordKind.totals.key Peg.totalsId]? = none ∧ s.totals = .zero

/-- What is stored after a checkpoint: the standings and the totals of `s'` and the given payouts,
written over what was stored before. -/
def overwrite (s s' : Stabilizer) (payouts : List Payout) : Stabilizer :=
  { s with
    standings := s'.standings.values.foldl (fun (t : Table String Standing) i =>
      t.insert i.currency i) s.standings
    history := payouts.foldl (fun (t : Table Digest PayoutRecord) x => t.insert x.id x.record)
      s.history
    totals := s'.totals }

theorem standings_overwrite (s : Stabilizer) {s' : Stabilizer} (hs' : s'.Keyed)
    (payouts : List Payout) (c : String) :
    (s.overwrite s' payouts).standings[c]? = (s'.standings[c]?).or s.standings[c]? := by
  unfold overwrite
  rcases Table.getElem?_foldl_insert_cases Standing.currency id s'.standings.values s.standings c with
    ⟨i, hi, rfl, h⟩ | ⟨hother, h⟩
  · obtain ⟨c, hc⟩ := Table.mem_values.1 hi
    obtain rfl := hs' c i hc
    rw [hc]
    exact h
  · cases hc : s'.standings[c]? with
    | none => exact h
    | some i => exact absurd (hs' c i hc) (hother i (Table.mem_values.2 ⟨c, hc⟩))

/-- Where no standing was lost, only the history tells what is stored from what was to be stored. -/
theorem sameButHistory_overwrite {s s' : Stabilizer} (hparams : s.params = s'.params)
    (hdirectory : s.directory = s'.directory) (hs' : s'.Keyed)
    (hkept : ∀ c : String, (s.standings[c]?).isSome → (s'.standings[c]?).isSome)
    (payouts : List Payout) : s'.SameButHistory (s.overwrite s' payouts) := by
  have hstandings : (s.overwrite s' payouts).standings = s'.standings := by
    refine Std.ExtTreeMap.ext_getElem? fun c => ?_
    rw [standings_overwrite s hs']
    cases hc : s'.standings[c]? with
    | some i => rfl
    | none =>
      have hnone : ¬ (s.standings[c]?).isSome := fun hsome => by simpa [hc] using hkept c hsome
      simpa using hnone
  refine ⟨(s.overwrite s' payouts).history, ?_⟩
  change Stabilizer.mk s.params s.directory (s.overwrite s' payouts).standings _ _ = _
  rw [hparams, hdirectory, hstandings]
  rfl

theorem alike_overwrite {β : Type} {f : PayoutRecord → β} {s s' before : Stabilizer}
    {payouts : List Payout} (h : Alike f before.history s.history)
    (hothers : ∀ id : Digest, (∀ x ∈ payouts, x.id ≠ id) → s'.history[id]? = before.history[id]?)
    (hrecorded : ∀ x ∈ payouts, s'.history[x.id]?.map f = some (f x.record)) :
    Alike f s'.history (s.overwrite s' payouts).history := by
  intro id
  rcases Table.getElem?_foldl_insert_cases Payout.id Payout.record payouts s.history id with
    ⟨x, hx, rfl, hget⟩ | ⟨hother, hget⟩
  · rw [hrecorded x hx]
    exact congrArg (Option.map f) hget
  · rw [hothers id hother, ← h id]
    exact congrArg (Option.map f) hget

theorem storedIn_new (params : StabilityParams) (directory : Directory) :
    (new params directory).StoredIn ∅ :=
  ⟨Shelf.mirrors_empty, Shelf.mirrors_empty, Or.inr ⟨by simp, rfl⟩⟩

namespace StoredIn

variable {s : Stabilizer} {entries : Table Bytes Bytes} (h : s.StoredIn entries)

include h

theorem load {store : Store} (hentries : store.entries = entries) (hreads : store.readsFail = false) :
    Peg.loadStabilizer store s.params s.directory = .ok s := by
  subst hentries
  obtain ⟨standings, hstandings, hstandingsTable⟩ : ∃ rs, store.records Standing .standing = .ok rs ∧
    rs.foldl (fun t i => t.insert i.currency i) ∅ = s.standings :=
      h.standings.records (fun _ _ => Bytes.ofString_injective) hreads
  obtain ⟨history, hhistory, hhistoryTable⟩ : ∃ rs, store.records PayoutRecord .payout = .ok rs ∧
    rs.foldl (fun t r => t.insert r.id r) ∅ = s.history :=
      h.history.records Shelf.apart_ofDigest hreads
  obtain ⟨totals, htotals, htotalsValue⟩ : ∃ totals,
      store.record? Totals .totals Peg.totalsId = .ok totals ∧ totals.getD .zero = s.totals := by
    have hread : store.read? (RecordKind.totals.key Peg.totalsId) =
        .ok store.entries[RecordKind.totals.key Peg.totalsId]? := by
      rw [Store.read?, hreads]
      rfl
    unfold Store.record?
    rw [hread]
    rcases h.totals with hsome | ⟨hnone, hzero⟩
    · refine ⟨some s.totals, ?_, rfl⟩
      rw [hsome]
      simp only [bind, Except.bind, decode?_encode]
    · refine ⟨none, ?_, hzero.symm⟩
      rw [hnone]
      rfl
  unfold Peg.loadStabilizer
  rw [hstandings, hhistory, htotals]
  change Except.ok _ = _
  unfold restore
  rw [hstandingsTable, hhistoryTable, htotalsValue]
  rfl

/-- An entry of another kind changes nothing. -/
theorem other {kind : RecordKind} (hstanding : kind ≠ .standing) (hpayout : kind ≠ .payout)
    (htotals : kind ≠ .totals) (id : Bytes) (value : Option Bytes) :
    s.StoredIn (applyEntry entries (kind.key id, value)) := by
  refine ⟨h.standings.other hstanding id value, h.history.other hpayout id value, ?_⟩
  rw [getElem?_applyEntry, if_neg fun heq => htotals heq.1]
  exact h.totals

theorem edit (e : Edit) : s.StoredIn (applyEntry entries e.entry) := by
  cases e <;> exact h.other (by decide) (by decide) (by decide) _ _

/-! ## Checkpoints -/

omit h in
theorem checkpoint_eq {s : Stabilizer} (hs : s.Keyed) (payouts : List Payout) :
    Peg.checkpoint s payouts =
      s.standings.values.map standingsShelf.entry ++
        (payouts.map Payout.record).map historyShelf.entry ++
          [(RecordKind.totals.key Peg.totalsId, some (encode s.totals))] := by
  unfold Peg.checkpoint
  rw [Table.values_eq_map_snd, List.map_map, List.map_map]
  congr 2
  refine List.map_congr_left fun e he => ?_
  have hcurrency := hs e.1 e.2 (Std.ExtTreeMap.mem_toList_iff_getElem?_eq_some.1 he)
  change (RecordKind.standing.key (Bytes.ofString e.1), some (encode e.2)) = _
  rw [← hcurrency]
  rfl

theorem checkpoint {s' : Stabilizer} (hs' : s'.Keyed) (payouts : List Payout) :
    (s.overwrite s' payouts).StoredIn ((Peg.checkpoint s' payouts).foldl applyEntry entries) := by
  rw [checkpoint_eq hs', List.foldl_append, List.foldl_append]
  have hstandings {kind : RecordKind} (hkind : .standing ≠ kind) :
      ∀ e ∈ s'.standings.values.map standingsShelf.entry, Misses kind e := misses_map hkind _ _ _
  have hrecords {kind : RecordKind} (hkind : .payout ≠ kind) :
      ∀ e ∈ (payouts.map Payout.record).map historyShelf.entry, Misses kind e :=
    misses_map hkind _ _ _
  refine ⟨?_, ?_, Or.inl ?_⟩
  · have hput := (h.standings.putAll s'.standings.values fun _ _ => trivial).congr
      (getElem?_foldl_applyEntry (hrecords (by decide : RecordKind.payout ≠ .standing)) _)
    exact hput.other (by decide) Peg.totalsId (some (encode s'.totals))
  · have hput := (h.history.congr (getElem?_foldl_applyEntry
      (hstandings (by decide : RecordKind.standing ≠ .payout)) entries)).putAll
        (payouts.map Payout.record) fun _ _ => trivial
    rw [List.foldl_map] at hput
    exact hput.other (by decide) Peg.totalsId (some (encode s'.totals))
  · rw [List.foldl_cons, List.foldl_nil, getElem?_applyEntry, if_pos ⟨rfl, rfl⟩]
    rfl

/-- To erase the records from below a height is to prune what is stored. -/
theorem erase {height : UInt64} {records : List PayoutRecord}
    (hrecords : ∀ r, r ∈ records ↔ historyShelf.Stored entries r) :
    (s.prune height).2.StoredIn
      (((records.filter fun r => r.blockHeight < height).map fun r =>
        (RecordKind.payout.key r.id.bytes, none)).foldl applyEntry entries) := by
  generalize hold : records.filter (fun r => r.blockHeight < height) = old
  have hmisses {kind : RecordKind} (hkind : .payout ≠ kind) :=
    misses_map hkind (fun r : PayoutRecord => r.id.bytes) (fun _ => none) old
  refine ⟨?_, ?_, ?_⟩
  · exact h.standings.congr (getElem?_foldl_applyEntry (hmisses (by decide)) entries)
  · have hdrop := h.history.dropAll (old.map PayoutRecord.id)
      fun _ _ _ _ heq => Digest.ext heq
    have hlists (id : Digest) (r : PayoutRecord) :
        s.history[id]? = some r ↔ r ∈ records ∧ r.id = id := by
      rw [hrecords, h.history.lists Shelf.apart_ofDigest]
      constructor
      · rintro ⟨r, hr, rfl, rfl⟩
        exact ⟨hr, rfl⟩
      · rintro ⟨hr, rfl⟩
        exact ⟨r, hr, rfl, rfl⟩
    rw [List.map_map, ← hold, foldl_erase_history hlists, hold] at hdrop
    exact hdrop
  · rw [getElem?_foldl_applyEntry (hmisses (by decide))]
    exact h.totals

end StoredIn

end Stabilizer

namespace Peg

theorem aboutStabilizer_checkpoint (s : Stabilizer) (payouts : List Payout) :
    AboutStabilizer (checkpoint s payouts) := by
  intro e he
  rcases List.mem_append.1 he with he | he
  · rcases List.mem_append.1 he with he | he
    · obtain ⟨i, -, rfl⟩ := List.mem_map.1 he
      exact ⟨.standing, _, by decide, rfl⟩
    · obtain ⟨x, -, rfl⟩ := List.mem_map.1 he
      exact ⟨.payout, _, by decide, rfl⟩
  · rw [List.mem_singleton.1 he]
    exact ⟨.totals, _, by decide, rfl⟩

theorem aboutStabilizer_erase (records : List PayoutRecord) :
    AboutStabilizer (records.map fun r => (RecordKind.payout.key r.id.bytes, none)) := by
  intro e he
  obtain ⟨r, -, rfl⟩ := List.mem_map.1 he
  exact ⟨.payout, _, by decide, rfl⟩

/-- All entries can be read, and those about the stabilizer are loaded as `s`. -/
structure Holds (entries : Table Bytes Bytes) (s : Stabilizer) : Prop where
  tables : ∃ t : Tables, t.Mirrored (fun _ => True) entries
  stabilizer : s.StoredIn entries

theorem holds_empty (params : StabilityParams) (directory : Directory) :
    Holds ∅ (.new params directory) :=
  ⟨⟨.empty, Tables.mirrored_empty⟩, Stabilizer.storedIn_new params directory⟩

namespace Holds

variable {entries : Table Bytes Bytes} {s : Stabilizer} (h : Holds entries s)

include h

theorem edit (e : Edit) : Holds (applyEntry entries e.entry) s :=
  ⟨h.tables.imp' (·.apply e) fun _ ht => ht.apply e.putsFor_any, h.stabilizer.edit e⟩

theorem checkpoint {s' : Stabilizer} (hs' : s'.Keyed) (payouts : List Payout) :
    Holds ((checkpoint s' payouts).foldl applyEntry entries) (s.overwrite s' payouts) :=
  ⟨h.tables.imp fun _ ht => ht.batch (aboutStabilizer_checkpoint s' payouts), h.stabilizer.checkpoint hs' payouts⟩

theorem erase {store : Store} (hentries : store.entries = entries)
    {records : List PayoutRecord} (hrecords : store.records PayoutRecord .payout = .ok records)
    (height : UInt64) :
    Holds (((records.filter fun r => r.blockHeight < height).map fun r =>
      (RecordKind.payout.key r.id.bytes, none)).foldl applyEntry entries) (s.prune height).2 := by
  subst hentries
  refine ⟨h.tables.imp fun _ ht => ht.batch (aboutStabilizer_erase _), h.stabilizer.erase ?_⟩
  have hreads : store.readsFail = false := Store.readsFail_of_records hrecords
  obtain ⟨rs, hrs, hmem⟩ := h.stabilizer.history.filed.records hreads
  obtain rfl : rs = records := Except.ok.inj (hrs.symm.trans hrecords)
  exact hmem

/-- Over a readable store of these entries a peg is opened with the stabilizer. -/
theorem open? (store : Store) (hentries : store.entries = entries) (hreads : store.readsFail = false)
    {config config' : Config} (hconfig : config.checked = .ok config')
    (hparams : s.params = config'.stabilization) :
    ∃ q, Peg.open? store s.directory config = .ok q ∧ q.stabilizer = s := by
  subst hentries
  obtain ⟨_, ht⟩ := h.tables
  obtain ⟨tables, htables⟩ := ht.exists_load hreads
  have hload := h.stabilizer.load rfl hreads
  rw [hparams] at hload
  refine ⟨⟨config', ⟨store, s.directory, config'.measurement, config'.targets, tables⟩, s, none⟩, ?_,
    rfl⟩
  unfold Peg.open? Oracle.begin?
  rw [hconfig, htables]
  change (loadStabilizer store config'.stabilization s.directory).mapError PegError.store >>= _ = _
  rw [hload]
  rfl

end Holds

end Peg

end WaterPeg
