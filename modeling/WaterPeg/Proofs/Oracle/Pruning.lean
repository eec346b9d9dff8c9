import WaterPeg.Proofs.Oracle.Verdicts

/-!
Pruning what is old. A prune goes by the time of an observation, and by the flags and the expiry of
an invite; averages, the acceptance window and the checks of an invite draw the same lines, so that
from a window that begins at the cutoff or later nothing is missing.
-/
namespace WaterPeg

def Reading.isOld {α : Type} (r : Reading α) (cutoff : UInt64) : Bool := r.timestamp < cutoff

def Invite.isSettled (i : Invite) (cutoff : UInt64) : Bool :=
  (i.isUsed || i.isExpired) && i.expiresAt < cutoff

/-- A window that begins at the cutoff or later holds no old observations. -/
theorem Reading.counts_and_recent {α : Type} (r : Reading α) {cutoff start : UInt64}
    (h : cutoff ≤ start) (stop : UInt64) (validatedOnly : Bool) :
    (r.counts start stop validatedOnly && !r.isOld cutoff) = r.counts start stop validatedOnly := by
  by_cases hold : r.timestamp < cutoff
  · have hbefore : ¬start ≤ r.timestamp :=
      UInt64.not_le.2 (UInt64.lt_of_lt_of_le hold h)
    simp [counts, hbefore]
  · simp [isOld, hold]

namespace Tables

def pruneEdits (t : Tables) (cutoff : UInt64) : List Edit :=
  ((t.water.values.filter (·.isOld cutoff)).map fun r => .dropWater r.id)
    ++ ((t.rates.values.filter (·.isOld cutoff)).map fun r => .dropRate r.id)
    ++ ((t.invites.values.filter (·.isSettled cutoff)).map fun i => .dropInvite i.id)

def prunedAt (t : Tables) (cutoff : UInt64) : Tables :=
  { t with
    water := t.water.filter fun _ r => !r.isOld cutoff
    rates := t.rates.filter fun _ r => !r.isOld cutoff
    invites := t.invites.filter fun _ i => !i.isSettled cutoff }

/-- Edits of one part of the tables are a fold over that part. -/
theorem foldl_apply_map {ρ τ : Type} (edit : ρ → Edit) (set : τ → Tables) (change : τ → ρ → τ)
    (h : ∀ x a, (set x).apply (edit a) = set (change x a)) (items : List ρ) (x : τ) :
    (items.map edit).foldl apply (set x) = set (items.foldl change x) := by
  induction items generalizing x with
  | nil => rfl
  | cons a items ih =>
    rw [List.map_cons, List.foldl_cons, h]
    exact ih _

theorem foldl_pruneEdits {t : Tables} (hkeyed : t.Keyed) (cutoff : UInt64) :
    (t.pruneEdits cutoff).foldl apply t = t.prunedAt cutoff := by
  have hwater := Table.foldl_erase_filter_values t.water Reading.id hkeyed.water (·.isOld cutoff)
  have hrates := Table.foldl_erase_filter_values t.rates Reading.id hkeyed.rates (·.isOld cutoff)
  have hinvites := Table.foldl_erase_filter_values t.invites Invite.id hkeyed.invites
    (·.isSettled cutoff)
  rw [List.foldl_map] at hwater hrates hinvites
  have hdropWater (t : Tables) (rs : List (Reading WaterPrice)) :
      (rs.map fun r => .dropWater r.id).foldl apply t =
        { t with water := rs.foldl (fun m r => m.erase r.id) t.water } :=
    foldl_apply_map _ (fun water => { t with water }) _ (fun _ _ => rfl) rs t.water
  have hdropRate (t : Tables) (rs : List (Reading ExchangeRate)) :
      (rs.map fun r => .dropRate r.id).foldl apply t =
        { t with rates := rs.foldl (fun m r => m.erase r.id) t.rates } :=
    foldl_apply_map _ (fun rates => { t with rates }) _ (fun _ _ => rfl) rs t.rates
  have hdropInvite (t : Tables) (is : List Invite) :
      (is.map fun i => .dropInvite i.id).foldl apply t =
        { t with invites := is.foldl (fun m i => m.erase i.id) t.invites } :=
    foldl_apply_map _ (fun invites => { t with invites }) _ (fun _ _ => rfl) is t.invites
  rw [pruneEdits, List.foldl_append, List.foldl_append, hdropWater, hdropRate, hdropInvite,
    prunedAt, ← hwater, ← hrates, ← hinvites]

variable (t : Tables) {cutoff start : UInt64} (h : cutoff ≤ start) (stop : UInt64)
  (validatedOnly : Bool)

include h

theorem waterPrices_prunedAt (currency : String) :
    (t.prunedAt cutoff).waterPrices currency start stop validatedOnly =
      t.waterPrices currency start stop validatedOnly := by
  simp only [waterPrices, prunedAt, Table.values_filter, List.filter_filter, Bool.and_assoc,
    Reading.counts_and_recent _ h]

theorem exchangeRates_prunedAt (base quote : String) :
    (t.prunedAt cutoff).exchangeRates base quote start stop validatedOnly =
      t.exchangeRates base quote start stop validatedOnly := by
  simp only [exchangeRates, prunedAt, Table.values_filter, List.filter_filter, Bool.and_assoc,
    Reading.counts_and_recent _ h]

end Tables

namespace Oracle

/-- A prune drops what is old, or fails and drops nothing. -/
theorem prune_cases {o : Oracle} (hkeyed : o.tables.Keyed) (cutoff : UInt64) :
    (o.prune cutoff).2 = o ∨
      ∃ store, (o.prune cutoff).2 = { o with store, tables := o.tables.prunedAt cutoff } := by
  have hcases := o.commit_cases (o.tables.pruneEdits cutoff) (o.tables.pruneEdits cutoff).length
  rcases hcases with ⟨e, h⟩ | ⟨store, h⟩
  · exact Or.inl (congrArg Prod.snd h)
  · refine Or.inr ⟨store, (congrArg Prod.snd h).trans ?_⟩
    dsimp only
    rw [Tables.foldl_pruneEdits hkeyed]

/-! ## What a prune spares -/

/-- All that is in use is the same in two oracles: the averages over windows from the cutoff on, the
open invites, and the other records. A submission that the first would accept at a time whose
acceptance window begins at the cutoff or later, over a store in any condition, the second accepts
over a store in that condition, with the same observation. -/
structure Spares (o q : Oracle) (cutoff : UInt64) : Prop where
  waterSummary : ∀ currency days now, cutoff ≤ Tables.windowStart now days →
    q.waterSummary? currency days now = o.waterSummary? currency days now
  exchangeSummary : ∀ base quote days now, cutoff ≤ Tables.windowStart now days →
    q.exchangeSummary? base quote days now = o.exchangeSummary? base quote days now
  invites : ∀ (id : Digest) i, o.tables.invites[id]? = some i → i.isUsed = false →
    i.isExpired = false → q.tables.invites[id]? = some i
  turnouts : q.tables.turnouts = o.tables.turnouts
  rollups : q.tables.rollups = o.tables.rollups
  urls : q.tables.urls = o.tables.urls
  firstSeen : q.tables.firstSeen = o.tables.firstSeen
  nextSequence : q.tables.nextSequence = o.tables.nextSequence
  submitWater : ∀ (s : Submission WaterOffer) now writesLeft readsFail id,
    cutoff ≤ Tables.windowStart now o.params.acceptanceWindowDays →
    ((o.step (.storeTurns writesLeft readsFail)).submit s now).1 = .ok id →
    ∃ r, r.id = id ∧ (o.step (.storeTurns writesLeft readsFail)).Accepts s now r ∧
      (q.step (.storeTurns writesLeft readsFail)).Accepts s now r
  submitRate : ∀ (s : Submission ExchangeRate) now writesLeft readsFail id,
    cutoff ≤ Tables.windowStart now o.params.acceptanceWindowDays →
    ((o.step (.storeTurns writesLeft readsFail)).submit s now).1 = .ok id →
    ∃ r, r.id = id ∧ (o.step (.storeTurns writesLeft readsFail)).Accepts s now r ∧
      (q.step (.storeTurns writesLeft readsFail)).Accepts s now r

theorem Spares.refl (o : Oracle) (cutoff : UInt64) : o.Spares o cutoff where
  waterSummary _ _ _ _ := rfl
  exchangeSummary _ _ _ _ _ := rfl
  invites _ _ hi _ _ := hi
  turnouts := rfl
  rollups := rfl
  urls := rfl
  firstSeen := rfl
  nextSequence := rfl
  submitWater _ _ _ _ _ _ h := by
    obtain ⟨r, hid, haccepts⟩ := accepts_of_submit h
    exact ⟨r, hid, haccepts, haccepts⟩
  submitRate _ _ _ _ _ _ h := by
    obtain ⟨r, hid, haccepts⟩ := accepts_of_submit h
    exact ⟨r, hid, haccepts, haccepts⟩

section

variable {o : Oracle} {cutoff : UInt64}

theorem invite_prunedAt {id : Digest} {i : Invite} (hi : o.tables.invites[id]? = some i)
    (hused : i.isUsed = false) (hexpired : i.isExpired = false) :
    (o.tables.prunedAt cutoff).invites[id]? = some i := by
  unfold Tables.prunedAt
  rw [Std.ExtTreeMap.getElem?_filter', hi]
  simp [Option.filter, Invite.isSettled, hused, hexpired]

/-- What is pruned is no longer known, so that a duplicate may pass for new, but not the other way
round. -/
theorem knows_prunedAt {t : Tables} {σ : Series} {id : Digest} (h : σ.knows t id = false) :
    σ.knows (t.prunedAt cutoff) id = false := by
  cases σ with
  | water =>
    refine Bool.eq_false_iff.2 fun hknows => Bool.eq_false_iff.1 h ?_
    exact Std.ExtTreeMap.contains_of_contains_filter hknows
  | rate =>
    refine Bool.eq_false_iff.2 fun hknows => Bool.eq_false_iff.1 h ?_
    exact Std.ExtTreeMap.contains_of_contains_filter hknows

theorem values_prunedAt (t : Tables) (σ : Series) {start : UInt64} (h : cutoff ≤ start)
    (stop : UInt64) : σ.values (t.prunedAt cutoff) start stop = σ.values t start stop := by
  cases σ with
  | water currency => exact t.waterPrices_prunedAt h stop false currency
  | rate base quote => exact t.exchangeRates_prunedAt h stop false base quote

variable {ω α : Type} [Quantity ω α] [SeriesQuantity ω] {s : Submission ω} {now : UInt64}
  (h : cutoff ≤ Tables.windowStart now o.params.acceptanceWindowDays)

include h

/-- An accepted submission rests on an open invite, on an id that is not taken and on a history that
begins at the cutoff or later. -/
theorem verdict_prunedAt (store : Store) {v : Verdict α} (hv : o.verdict s now = .ok v) :
    verdict { o with store, tables := o.tables.prunedAt cutoff } s now = .ok v := by
  obtain ⟨hscreen, happraise⟩ := verdict_eq_ok_iff.1 hv
  obtain ⟨hinvite, -⟩ := screen_of_ok hscreen
  obtain ⟨hi, -, -, -, hused, hexpired, -⟩ := usableInvite_of_ok hinvite
  have hnew := contains_of_appraise happraise
  rw [SeriesQuantity.contains_readings _ v.measured] at hnew
  refine verdict_eq_ok_iff.2 ⟨?_, ?_⟩
  · rw [← hscreen]
    refine screen_congr rfl (usableInvite_congr ?_ ..)
    rw [hi]
    exact invite_prunedAt hi hused hexpired
  · rw [← happraise]
    refine appraise_congr ?_ ?_ ?_
    · rfl
    · rw [hnew]
      exact knows_prunedAt hnew
    · exact values_prunedAt _ _ h now

theorem accepts_prunedAt (store : Store) (writesLeft : Option Nat) (readsFail : Bool) {id : Digest}
    (hsubmit : ((o.step (.storeTurns writesLeft readsFail)).submit s now).1 = .ok id) :
    ∃ r, r.id = id ∧ (o.step (.storeTurns writesLeft readsFail)).Accepts s now r ∧
      (step { o with store, tables := o.tables.prunedAt cutoff }
        (.storeTurns writesLeft readsFail)).Accepts s now r := by
  obtain ⟨v, hv, rfl, hroom⟩ := verdict_of_submit hsubmit
  have hpruned : (step { o with store, tables := o.tables.prunedAt cutoff }
      (.storeTurns writesLeft readsFail)).verdict s now = .ok v := verdict_prunedAt h _ hv
  exact ⟨_, rfl, accepts_of_verdict hv hroom, accepts_of_verdict hpruned hroom⟩

end

theorem spares_prunedAt (o : Oracle) (cutoff : UInt64) (store : Store) :
    o.Spares { o with store, tables := o.tables.prunedAt cutoff } cutoff where
  waterSummary currency days now h := by
    simp only [waterSummary?, waterWindow, summarize?, o.tables.waterPrices_prunedAt h]
  exchangeSummary base quote days now h := by
    simp only [exchangeSummary?, exchangeWindow, summarize?, o.tables.exchangeRates_prunedAt h]
  invites _ _ := invite_prunedAt
  turnouts := rfl
  rollups := rfl
  urls := rfl
  firstSeen := rfl
  nextSequence := rfl
  submitWater _ _ _ _ _ h hsubmit := accepts_prunedAt h store _ _ hsubmit
  submitRate _ _ _ _ _ h hsubmit := accepts_prunedAt h store _ _ hsubmit

/-- A prune touches nothing that is still in use. -/
theorem prune_spares {store : Store} {directory : Directory} {config : Config} {o : Oracle}
    (hbegin : begin? store directory config = .ok o) (life : List Chapter) (cutoff : UInt64) :
    (o.live life).Spares ((o.live life).after (.prune cutoff)) cutoff := by
  change (o.live life).Spares ((o.live life).prune cutoff).2 cutoff
  rcases prune_cases (keyed_live hbegin life) cutoff with h | ⟨store, h⟩
  · rw [h]
    exact .refl _ cutoff
  · rw [h]
    exact spares_prunedAt _ cutoff store

/-- Ada's observation is pruned in the second after its time. -/
theorem prune_spares_adasRun :
    (((fresh adaAlone {}).live (adasRun.map .event)).tables.water.size = 1 ∧
      (((fresh adaAlone {}).live (adasRun.map .event)).after
        (.prune 1750000001)).tables.water.size = 0) ∧
      ((fresh adaAlone {}).live (adasRun.map .event)).Spares
        (((fresh adaAlone {}).live (adasRun.map .event)).after (.prune 1750000001)) 1750000001 := by
  have hbegin : begin? .empty adaAlone {} = .ok (fresh adaAlone {}) := rfl
  exact ⟨by decide +kernel, prune_spares hbegin (adasRun.map .event) 1750000001⟩

end Oracle

end WaterPeg
