import WaterPeg.Proofs.Oracle.Readings
import WaterPeg.Proofs.Oracle.Retries

/-!
What decides a submission: the invite that it answers, whether its id is taken, and the history of
its series. What is written for an accepted one depends on the turnouts and the first times too, but
those decide nothing.
-/
namespace WaterPeg

/-! ## Series -/

/-- The observations that are compared with each other: the prices of water in a currency, or the
rates of a pair. -/
inductive Series
  | water (currency : String)
  | rate (base quote : String)
deriving DecidableEq

namespace Series

def kind : Series → RecordKind
  | .water _ => .waterPrice
  | .rate _ _ => .exchangeRate

theorem kind_ne (σ : Series) {kind : RecordKind} (hwater : kind ≠ .waterPrice)
    (hrate : kind ≠ .exchangeRate) : kind ≠ σ.kind := by
  cases σ with
  | water => exact hwater
  | rate => exact hrate

def knows (t : Tables) : Series → Digest → Bool
  | .water _ => t.water.contains
  | .rate _ _ => t.rates.contains

def values (t : Tables) : Series → UInt64 → UInt64 → List UInt64
  | .water currency, start, stop => t.waterPrices currency start stop false
  | .rate base quote, start, stop => t.exchangeRates base quote start stop false

end Series

def Edit.observed? : Edit → Option (Series × Digest)
  | .putWater r => some (.water r.measured.currency, r.id)
  | .putRate r => some (.rate r.measured.base r.measured.quote, r.id)
  | .putInvite _ | .putTurnout _ | .putRollup _ | .putUrl _ | .putFirstSeen _ _ | .dropWater _
  | .dropRate _ | .dropInvite _ => none

theorem Edit.slot_of_observed? {e : Edit} {σ : Series} {id : Digest}
    (h : e.observed? = some (σ, id)) : e.slot = (σ.kind, id.bytes) := by
  cases e with
  | putWater | putRate =>
    obtain ⟨rfl, rfl⟩ := Prod.mk.inj (Option.some.inj h)
    rfl
  | _ => exact nomatch h

/-- The other edits are written elsewhere. -/
theorem Series.misses_of_keepsReadings (σ : Series) {e : Edit} (h : e.KeepsReadings) :
    Store.Misses σ.kind e.entry := by
  cases e with
  | putInvite | dropInvite => exact ⟨.invite, _, σ.kind_ne nofun nofun, rfl⟩
  | putTurnout => exact ⟨.turnout, _, σ.kind_ne nofun nofun, rfl⟩
  | putRollup => exact ⟨.rollup, _, σ.kind_ne nofun nofun, rfl⟩
  | putUrl => exact ⟨.sourceUrl, _, σ.kind_ne nofun nofun, rfl⟩
  | putFirstSeen => exact ⟨.firstSeen, _, σ.kind_ne nofun nofun, rfl⟩
  | _ => exact h.elim

/-- The series that offers feed, and where their observations are kept. -/
class SeriesQuantity (ω : Type) {α : Type} [Quantity ω α] where
  feeds : ω → Series
  series : α → Series
  series_of_measure {p : MeasurementParams} {offer : ω} {measured : α}
    (h : Quantity.measure p offer = .ok measured) : series measured = feeds offer
  contains_readings (t : Tables) (measured : α) :
    (Quantity.readings ω t).contains = (series measured).knows t
  values_eq (t : Tables) (measured : α) : Quantity.series ω t measured = (series measured).values t
  observed?_put (r : Reading α) : (Quantity.put ω r).observed? = some (series r.measured, r.id)
  readings_put (t : Tables) (r : Reading α) :
    Quantity.readings ω (t.apply (Quantity.put ω r)) = (Quantity.readings ω t).insert r.id r
  readings_congr {t t' : Tables} (hwater : t'.water = t.water) (hrates : t'.rates = t.rates) :
    Quantity.readings ω t' = Quantity.readings ω t

def Submission.series {ω α : Type} [Quantity ω α] [SeriesQuantity ω] (s : Submission ω) : Series :=
  SeriesQuantity.feeds α s.offer

theorem Submission.series_of_measure {ω α : Type} [Quantity ω α] [SeriesQuantity ω]
    {s : Submission ω} {p : MeasurementParams} {measured : α}
    (h : Quantity.measure p s.offer = .ok measured) : SeriesQuantity.series ω measured = s.series :=
  SeriesQuantity.series_of_measure h

theorem WaterPrice.currency_of_perLiter {p : MeasurementParams} {offer : WaterOffer}
    {measured : WaterPrice} (h : p.perLiter offer = .ok measured) :
    measured.currency = offer.currency := by
  obtain ⟨-, -, -, price, -, -, rfl⟩ := p.perLiter_of_ok h
  rfl

instance : SeriesQuantity WaterOffer where
  feeds offer := .water offer.currency
  series measured := .water measured.currency
  series_of_measure h := congrArg Series.water (WaterPrice.currency_of_perLiter h)
  contains_readings _ _ := rfl
  values_eq _ _ := rfl
  observed?_put _ := rfl
  readings_put _ _ := rfl
  readings_congr hwater _ := hwater

instance : SeriesQuantity ExchangeRate where
  feeds offer := .rate offer.base offer.quote
  series measured := .rate measured.base measured.quote
  series_of_measure h := by
    obtain ⟨-, -, rfl⟩ := map_eq_ok_iff.1 h
    rfl
  contains_readings _ _ := rfl
  values_eq _ _ := rfl
  observed?_put _ := rfl
  readings_put _ _ := rfl
  readings_congr _ hrates := hrates

/-! ## Verdicts -/

structure Verdict (α : Type) where
  invite : Invite
  measured : α
  /-- The moments of the history that the value stood beside. -/
  moments : Option Moments

namespace Oracle

variable {ω α : Type} [Quantity ω α]

def appraise (o : Oracle) (s : Submission ω) (now : UInt64) (measured : α) :
    Except Refusal (Option Moments) :=
  if (Quantity.readings ω o.tables).contains (sha3 (s.preimage measured)) then .error .duplicate
  else
    ((band o.params).judge (Quantity.series ω o.tables measured
      (Tables.windowStart now o.params.acceptanceWindowDays) now)
      (Quantity.value ω measured)).mapError fun m => .outOfBand (Quantity.value ω measured) m.mean

def verdict (o : Oracle) (s : Submission ω) (now : UInt64) : Except Refusal (Verdict α) := do
  let (invite, measured) ← o.screen s now
  let moments ← o.appraise s now measured
  .ok ⟨invite, measured, moments⟩

def enactment (o : Oracle) (s : Submission ω) (now : UInt64) (v : Verdict α) : List Edit :=
  (o.acceptance s now v.invite v.measured v.moments).edits (Quantity.put ω)

theorem judge_eq_verdict (o : Oracle) (s : Submission ω) (now : UInt64) :
    o.judge s now = o.verdict s now >>= fun v =>
      .ok (o.acceptance s now v.invite v.measured v.moments) := by
  rw [judge_eq]
  unfold verdict
  simp only [bind_assoc]
  refine bind_congr fun (invite, measured) => ?_
  dsimp only [admission, appraise]
  split
  · rfl
  · rfl

variable {o q : Oracle} {s : Submission ω} {now : UInt64}

theorem submit_of_verdict {v : Verdict α} (h : o.verdict s now = .ok v) :
    o.submit s now = o.commit (o.enactment s now v) (sha3 (s.preimage v.measured)) := by
  have hjudge : o.judge s now = .ok (o.acceptance s now v.invite v.measured v.moments) := by
    rw [judge_eq_verdict, h]
    rfl
  unfold submit
  rw [hjudge]
  rfl

theorem submit_of_refusal {why : Refusal} (h : o.verdict s now = .error why) :
    o.submit s now = (.error (.refused why), o) := by
  have hjudge : o.judge s now = .error why := by
    rw [judge_eq_verdict, h]
    rfl
  unfold submit
  rw [hjudge]

theorem verdict_eq_ok_iff {v : Verdict α} :
    o.verdict s now = .ok v ↔
      o.screen s now = .ok (v.invite, v.measured) ∧ o.appraise s now v.measured = .ok v.moments := by
  constructor
  · intro h
    obtain ⟨⟨invite, measured⟩, hscreen, h⟩ := bind_eq_ok_iff.1 h
    obtain ⟨moments, hmoments, h⟩ := bind_eq_ok_iff.1 h
    obtain rfl := Except.ok.inj h
    exact ⟨hscreen, hmoments⟩
  · rintro ⟨hscreen, hmoments⟩
    exact bind_eq_ok_iff.2 ⟨_, hscreen, bind_eq_ok_iff.2 ⟨_, hmoments, rfl⟩⟩

/-- The observation of an accepted submission is new. -/
theorem contains_of_appraise {measured : α} {moments : Option Moments}
    (h : o.appraise s now measured = .ok moments) :
    (Quantity.readings ω o.tables).contains (sha3 (s.preimage measured)) = false := by
  unfold appraise at h
  split at h
  · exact nomatch h
  · next hnew => exact Bool.eq_false_iff.2 hnew

/-- Over a store with room every commit is made, in memory and in the store. -/
theorem commit_eq_of_room {β : Type} (h : o.store.writesLeft ≠ some 0) (edits : List Edit)
    (result : β) :
    ∃ store : Store,
      store.entries = (edits.map Edit.entry).foldl Store.applyEntry o.store.entries ∧
        o.commit edits result =
          (.ok result, { o with store, tables := edits.foldl Tables.apply o.tables }) := by
  have hroom := commit_of_room h edits result
  unfold commit at hroom ⊢
  split at hroom
  · next hnil =>
    rw [List.isEmpty_iff.1 hnil]
    exact ⟨o.store, rfl, rfl⟩
  · next hnil =>
    rw [if_neg hnil]
    cases hbatch : o.store.applyBatch (edits.map Edit.entry) with
    | error e =>
      rw [hbatch] at hroom
      exact nomatch hroom
    | ok store => exact ⟨store, (Store.applyBatch_of_ok hbatch).1, rfl⟩

theorem room_of_commit {β : Type} {edits : List Edit} {result result' : β} (hedits : edits ≠ [])
    (h : (o.commit edits result).1 = .ok result') :
    result' = result ∧ o.store.writesLeft ≠ some 0 := by
  unfold commit at h
  rw [if_neg (mt List.isEmpty_iff.1 hedits)] at h
  split at h
  · exact nomatch h
  · next store hstore =>
    refine ⟨(Except.ok.inj h).symm, fun hfull => ?_⟩
    unfold Store.applyBatch Store.mutate at hstore
    rw [hfull] at hstore
    exact nomatch hstore

structure Accepts (o : Oracle) (s : Submission ω) (now : UInt64) (r : Reading α) : Prop where
  answer : (o.submit s now).1 = .ok r.id
  held : (Quantity.readings ω (o.submit s now).2.tables)[r.id]? = some r
  stored : (o.submit s now).2.store.entries[(Quantity.put ω r).entry.1]? = (Quantity.put ω r).entry.2

/-- An acceptance adds its observation to those that are held. -/
theorem readings_foldl_edits [SeriesQuantity ω] (a : Acceptance α) (t : Tables) :
    Quantity.readings ω ((a.edits (Quantity.put ω)).foldl Tables.apply t) =
      (Quantity.readings ω t).insert a.reading.id a.reading := by
  obtain ⟨hwater, hrates⟩ := readings_acceptance a (Quantity.put ω) t
  rw [← SeriesQuantity.readings_put]
  exact SeriesQuantity.readings_congr hwater hrates

theorem edits_eq_cons (a : Acceptance α) (put : Reading α → Edit) :
    ∃ rest, a.edits put = put a.reading :: rest ∧ ∀ e ∈ rest, e.KeepsReadings := by
  unfold Acceptance.edits
  cases a.firstSeen with
  | none => exact ⟨[.putInvite a.invite, .putTurnout a.turnout], rfl, by simp [Edit.KeepsReadings]⟩
  | some first =>
    exact ⟨[.putInvite a.invite, .putTurnout a.turnout, .putFirstSeen first.1 first.2], rfl,
      by simp [Edit.KeepsReadings]⟩

/-- What it writes besides does not stand under the key of the observation. -/
theorem stored_foldl_edits [SeriesQuantity ω] (a : Acceptance α) (entries : Table Bytes Bytes) :
    (((a.edits (Quantity.put ω)).map Edit.entry).foldl Store.applyEntry
      entries)[(Quantity.put ω a.reading).entry.1]? = (Quantity.put ω a.reading).entry.2 := by
  obtain ⟨rest, hedits, hrest⟩ := edits_eq_cons a (Quantity.put ω)
  have hobserved : (Quantity.put ω a.reading).observed? = some (_, _) :=
    SeriesQuantity.observed?_put a.reading
  have hkey := (Quantity.put ω a.reading).key_entry
  rw [Edit.slot_of_observed? hobserved] at hkey
  have hmisses : ∀ e ∈ rest.map Edit.entry,
      Store.Misses (SeriesQuantity.series ω a.reading.measured).kind e := by
    intro e he
    obtain ⟨f, hf, rfl⟩ := List.mem_map.1 he
    exact Series.misses_of_keepsReadings _ (hrest f hf)
  rw [hedits, List.map_cons, List.foldl_cons, hkey, Store.getElem?_foldl_applyEntry hmisses]
  generalize (Quantity.put ω a.reading).entry = e at hkey
  obtain ⟨key, value⟩ := e
  obtain rfl := hkey
  rw [Store.getElem?_applyEntry, if_pos ⟨rfl, rfl⟩]

/-- A submission is accepted on its verdict, by an oracle whose store has room. -/
theorem verdict_of_submit {id : Digest} (h : (o.submit s now).1 = .ok id) :
    ∃ v, o.verdict s now = .ok v ∧ id = sha3 (s.preimage v.measured) ∧
      o.store.writesLeft ≠ some 0 := by
  cases hverdict : o.verdict s now with
  | error why =>
    rw [submit_of_refusal hverdict] at h
    exact nomatch h
  | ok v =>
    obtain ⟨rest, hedits, -⟩ := edits_eq_cons (o.acceptance s now v.invite v.measured v.moments)
      (Quantity.put ω)
    have hsome : o.enactment s now v ≠ [] := by
      rw [enactment, hedits]
      exact List.cons_ne_nil _ _
    rw [submit_of_verdict hverdict] at h
    exact ⟨v, rfl, room_of_commit hsome h⟩

theorem accepts_of_verdict [SeriesQuantity ω] {v : Verdict α} (h : o.verdict s now = .ok v)
    (hroom : o.store.writesLeft ≠ some 0) :
    o.Accepts s now (o.acceptance s now v.invite v.measured v.moments).reading := by
  obtain ⟨store, hstore, hcommit⟩ := commit_eq_of_room hroom (o.enactment s now v)
    (sha3 (s.preimage v.measured))
  rw [← submit_of_verdict h] at hcommit
  refine ⟨?_, ?_, ?_⟩
  · rw [hcommit]
    rfl
  · rw [hcommit]
    dsimp only [enactment]
    rw [readings_foldl_edits, Std.ExtTreeMap.getElem?_insert_self]
  · rw [hcommit]
    dsimp only
    rw [hstore]
    exact stored_foldl_edits _ _

theorem accepts_of_submit [SeriesQuantity ω] {id : Digest} (h : (o.submit s now).1 = .ok id) :
    ∃ r, r.id = id ∧ o.Accepts s now r := by
  obtain ⟨v, hverdict, rfl, hroom⟩ := verdict_of_submit h
  exact ⟨_, rfl, accepts_of_verdict hverdict hroom⟩

/-! ## Oracles that come to the same verdict -/

theorem usableInvite_congr {id : Digest} (h : q.tables.invites[id]? = o.tables.invites[id]?)
    (submitter : String) (answers : MeasurementKind → Bool) (currency : String) :
    q.usableInvite id submitter answers currency now =
      o.usableInvite id submitter answers currency now := by
  unfold usableInvite
  rw [h]

section

variable (hparams : q.params = o.params)

include hparams

theorem screen_congr
    (hinvite : q.usableInvite s.inviteId s.submitter (Quantity.answers ω)
        (Quantity.currency s.offer) now =
      o.usableInvite s.inviteId s.submitter (Quantity.answers ω) (Quantity.currency s.offer) now) :
    q.screen s now = o.screen s now := by
  unfold screen
  rw [hinvite, hparams]

theorem appraise_congr [SeriesQuantity ω] {measured : α}
    (hid : (SeriesQuantity.series ω measured).knows q.tables (sha3 (s.preimage measured)) =
      (SeriesQuantity.series ω measured).knows o.tables (sha3 (s.preimage measured)))
    (hvalues : (SeriesQuantity.series ω measured).values q.tables
        (Tables.windowStart now o.params.acceptanceWindowDays) now =
      (SeriesQuantity.series ω measured).values o.tables
        (Tables.windowStart now o.params.acceptanceWindowDays) now) :
    q.appraise s now measured = o.appraise s now measured := by
  unfold appraise
  simp only [SeriesQuantity.contains_readings _ measured, SeriesQuantity.values_eq, hid, hparams,
    hvalues]

end

theorem verdict_congr (hscreen : q.screen s now = o.screen s now)
    (happraise : ∀ invite measured, o.screen s now = .ok (invite, measured) →
      q.appraise s now measured = o.appraise s now measured) :
    q.verdict s now = o.verdict s now := by
  unfold verdict
  rw [hscreen]
  refine bind_congr_of_ok fun (invite, measured) h => ?_
  dsimp only
  rw [happraise invite measured h]

/-- Over stores with room the same verdict gives the same result. -/
theorem fst_submit_congr (h : q.verdict s now = o.verdict s now)
    (ho : o.store.writesLeft ≠ some 0) (hq : q.store.writesLeft ≠ some 0) :
    (q.submit s now).1 = (o.submit s now).1 := by
  cases hverdict : o.verdict s now with
  | error why =>
    rw [submit_of_refusal hverdict, submit_of_refusal (h.trans hverdict)]
  | ok v =>
    rw [submit_of_verdict hverdict, submit_of_verdict (h.trans hverdict), commit_of_room ho,
      commit_of_room hq]

end Oracle

end WaterPeg
