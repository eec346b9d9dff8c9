import WaterPeg.Oracle.Averages
import WaterPeg.Oracle.Days
import WaterPeg.Oracle.Issue
import WaterPeg.Oracle.Submission
import WaterPeg.Oracle.Upkeep
import WaterPeg.Oracle.Urls

/-!
The requests to the oracle as data, and what no request changes. All of them end in a commit, or in a
refusal that leaves the oracle as it was.
-/
namespace WaterPeg

/-- A store that never fails takes every batch. -/
theorem Store.applyBatch_of_writesLeft {s : Store} (h : s.writesLeft = none) (batch : Batch) :
    s.applyBatch batch = .ok { s with entries := batch.foldl applyEntry s.entries } := by
  unfold applyBatch mutate
  rw [h]

def Edit.KeepsReadings : Edit → Prop
  | .putWater _ | .putRate _ | .dropWater _ | .dropRate _ => False
  | .putInvite _ | .putTurnout _ | .putRollup _ | .putUrl _ | .putFirstSeen _ _ | .dropInvite _ =>
    True

def Edit.Clerical : Edit → Prop
  | .putRollup _ | .putUrl _ => True
  | .putWater _ | .putRate _ | .putInvite _ | .putTurnout _ | .putFirstSeen _ _ | .dropWater _
  | .dropRate _ | .dropInvite _ => False

theorem Edit.Clerical.keepsReadings {e : Edit} (h : e.Clerical) : e.KeepsReadings := by
  cases e with
  | putRollup | putUrl => trivial
  | _ => exact h.elim

/-- What each of some edits leaves alone, all of them together do. -/
theorem Tables.foldl_apply_keeps {τ : Type} (part : Tables → τ) {edits : List Edit}
    (h : ∀ e ∈ edits, ∀ t, part (apply t e) = part t) (t : Tables) :
    part (edits.foldl apply t) = part t :=
  List.foldlRecOn edits apply (motive := fun t' => part t' = part t) rfl
    fun t' ht e he => (h e he t').trans ht

def Tables.readings (t : Tables) :
    Table Digest (Reading WaterPrice) × Table Digest (Reading ExchangeRate) :=
  (t.water, t.rates)

theorem Tables.readings_apply {e : Edit} (h : e.KeepsReadings) (t : Tables) :
    (t.apply e).readings = t.readings := by
  cases e <;> first | rfl | exact h.elim

theorem Tables.readings_foldl_apply (t : Tables) {edits : List Edit}
    (h : ∀ e ∈ edits, e.KeepsReadings) :
    (edits.foldl apply t).water = t.water ∧ (edits.foldl apply t).rates = t.rates :=
  Prod.mk.inj (foldl_apply_keeps readings (fun e he => readings_apply (h e he)) t)

/-- What the edits of an acceptance put. -/
theorem Acceptance.mem_edits {α : Type} {put : Reading α → Edit} {a : Acceptance α} {e : Edit}
    (h : e ∈ a.edits put) :
    e = put a.reading ∨ e = .putInvite a.invite ∨ e = .putTurnout a.turnout ∨
      ∃ currency time, e = .putFirstSeen currency time := by
  rcases List.mem_append.1 h with h | h
  · simp only [List.mem_cons, List.not_mem_nil, or_false] at h
    exact h.imp_right (Or.imp_right Or.inl)
  · split at h
    · exact Or.inr (Or.inr (Or.inr ⟨_, _, List.mem_singleton.1 h⟩))
    · exact nomatch h

namespace Oracle

inductive Request
  | issue (count : Nat) (kind : MeasurementKind) (currency : Option String)
    (now blockHeight : UInt64)
  | issueForTarget (target : UInt64) (kind : MeasurementKind) (currency : Option String)
    (now blockHeight : UInt64)
  | submitWater (s : Submission WaterOffer) (now : UInt64)
  | submitRate (s : Submission ExchangeRate) (now : UInt64)
  | endorse (id : Digest) (validator : String)
  | expireInvites (now : UInt64)
  | prune (cutoff : UInt64)
  | rollUpDay (date : Date) (blockHeight : UInt64)
  | registerUrl (url : String) (kind : MeasurementKind) (currency : Option String)
    (submitter : String) (now blockHeight : UInt64)
  | endorseUrl (id : Digest) (validator : String)
  | recordUrlCheck (id : Digest) (success : Bool) (now : UInt64)

/-- The oracle after a request, whether it succeeded or not. -/
def after (o : Oracle) : Request → Oracle
  | .issue count kind currency now blockHeight => (o.issue count kind currency now blockHeight).2
  | .issueForTarget target kind currency now blockHeight =>
    (o.issueForTarget target kind currency now blockHeight).2
  | .submitWater s now => (o.submit s now).2
  | .submitRate s now => (o.submit s now).2
  | .endorse id validator => (o.endorse id validator).2
  | .expireInvites now => (o.expireInvites now).2
  | .prune cutoff => (o.prune cutoff).2
  | .rollUpDay date blockHeight => (o.rollUpDay date blockHeight).2
  | .registerUrl url kind currency submitter now blockHeight =>
    (o.registerUrl url kind currency submitter now blockHeight).2
  | .endorseUrl id validator => (o.endorseUrl id validator).2
  | .recordUrlCheck id success now => (o.recordUrlCheck id success now).2

/-! ## Commits -/

section

variable {α : Type} (o : Oracle) (edits : List Edit) (result : α)

/-- A commit makes all of its edits, or fails and makes none. -/
theorem commit_cases :
    (∃ e, o.commit edits result = (.error (.store e), o)) ∨
      ∃ store, o.commit edits result =
        (.ok result, { o with store, tables := edits.foldl Tables.apply o.tables }) := by
  unfold commit
  split
  · next h =>
    rw [List.isEmpty_iff.1 h]
    exact Or.inr ⟨o.store, rfl⟩
  · cases o.store.applyBatch (edits.map Edit.entry) with
    | error e => exact Or.inl ⟨e, rfl⟩
    | ok store => exact Or.inr ⟨store, rfl⟩

theorem commit_of_writesLeft (h : o.store.writesLeft = none) :
    ∃ store : Store, store.writesLeft = none ∧ o.commit edits result =
      (.ok result, { o with store, tables := edits.foldl Tables.apply o.tables }) := by
  unfold commit
  split
  · next hnil =>
    rw [List.isEmpty_iff.1 hnil]
    exact ⟨o.store, h, rfl⟩
  · rw [Store.applyBatch_of_writesLeft h]
    refine ⟨_, ?_, rfl⟩
    exact h

theorem tables_commit :
    (o.commit edits result).2.tables = o.tables ∨
      (o.commit edits result).2.tables = edits.foldl Tables.apply o.tables := by
  rcases commit_cases o edits result with ⟨e, h⟩ | ⟨store, h⟩
  · exact Or.inl (by rw [h])
  · exact Or.inr (by rw [h])

variable {edits}

theorem commit_keeps {τ : Type} (part : Tables → τ)
    (h : ∀ e ∈ edits, ∀ t : Tables, part (t.apply e) = part t) :
    part (o.commit edits result).2.tables = part o.tables := by
  rcases o.tables_commit edits result with htables | htables
  · rw [htables]
  · rw [htables]
    exact Tables.foldl_apply_keeps part h o.tables

theorem readings_commit (h : ∀ e ∈ edits, e.KeepsReadings) :
    (o.commit edits result).2.tables.water = o.tables.water ∧
      (o.commit edits result).2.tables.rates = o.tables.rates :=
  Prod.mk.inj (o.commit_keeps result Tables.readings fun e he => Tables.readings_apply (h e he))

end

inductive Concludes (o : Oracle) {α : Type} : Outcome α → Prop
  | refused (why : OracleError) : o.Concludes (.error why, o)
  | committed (edits : List Edit) (result : α) : o.Concludes (o.commit edits result)

theorem concludes_submit {ω α : Type} [Quantity ω α] (o : Oracle) (s : Submission ω)
    (now : UInt64) : o.Concludes (o.submit s now) := by
  unfold submit
  split
  · exact .refused _
  · exact .committed ..

theorem concludes_endorse (o : Oracle) (id : Digest) (validator : String) :
    o.Concludes (o.endorse id validator) := by
  unfold endorse
  split
  · split
    · exact .refused _
    · exact .committed ..
  · split
    · split
      · exact .refused _
      · exact .committed ..
    · exact .refused _

/-- How a request ends that is about rollups and pages alone: refused, though not as a duplicate of
an observation, or in a commit of edits of those. -/
inductive Clerical (o : Oracle) {α : Type} : Outcome α → Prop
  | refused {why : OracleError} (h : why ≠ .refused .duplicate) : o.Clerical (.error why, o)
  | committed (edits : List Edit) (result : α) (h : ∀ e ∈ edits, e.Clerical) :
    o.Clerical (o.commit edits result)

theorem Clerical.concludes {o : Oracle} {α : Type} {out : Outcome α} (h : o.Clerical out) :
    o.Concludes out := by
  cases h with
  | refused => exact .refused _
  | committed => exact .committed ..

/-- What edits of rollups and pages leave alone, the request does. -/
theorem Clerical.keeps {α τ : Type} {o : Oracle} {out : Outcome α} (h : o.Clerical out)
    (part : Tables → τ) (hpart : ∀ e : Edit, e.Clerical → ∀ t, part (t.apply e) = part t) :
    part out.2.tables = part o.tables := by
  cases h with
  | refused => rfl
  | committed edits result hedits =>
    exact o.commit_keeps result part fun e he => hpart e (hedits e he)

theorem clerical_putUrl {α : Type} (o : Oracle) (u : SourceUrl) (result : α) :
    o.Clerical (o.commit [.putUrl u] result) := by
  refine .committed _ _ fun e he => ?_
  rw [List.mem_singleton.1 he]
  trivial

theorem clerical_rollUpDay (o : Oracle) (date : Date) (blockHeight : UInt64) :
    o.Clerical (o.rollUpDay date blockHeight) := by
  unfold rollUpDay
  split
  · exact .refused nofun
  · refine .committed _ _ fun e he => ?_
    obtain ⟨r, -, rfl⟩ := List.mem_map.1 he
    trivial

theorem clerical_registerUrl (o : Oracle) (url : String) (kind : MeasurementKind)
    (currency : Option String) (submitter : String) (now blockHeight : UInt64) :
    o.Clerical (o.registerUrl url kind currency submitter now blockHeight) := by
  unfold registerUrl
  split
  · exact .refused nofun
  · dsimp only
    split
    · exact .refused nofun
    · exact o.clerical_putUrl _ _

theorem clerical_endorseUrl (o : Oracle) (id : Digest) (validator : String) :
    o.Clerical (o.endorseUrl id validator) := by
  unfold endorseUrl
  split
  · exact .refused nofun
  · split
    · exact .refused nofun
    · split
      · exact .refused nofun
      · exact o.clerical_putUrl _ _

theorem clerical_recordUrlCheck (o : Oracle) (id : Digest) (success : Bool) (now : UInt64) :
    o.Clerical (o.recordUrlCheck id success now) := by
  unfold recordUrlCheck
  split
  · exact .refused nofun
  · exact o.clerical_putUrl _ _

/-! ## What requests keep -/

structure SameSetup (o o' : Oracle) : Prop where
  directory_eq : o'.directory = o.directory
  params_eq : o'.params = o.params
  targets_eq : o'.targets = o.targets

theorem SameSetup.refl (o : Oracle) : o.SameSetup o := ⟨rfl, rfl, rfl⟩

theorem sameSetup_commit {α : Type} (o : Oracle) (edits : List Edit) (result : α) :
    o.SameSetup (o.commit edits result).2 := by
  rcases commit_cases o edits result with ⟨e, h⟩ | ⟨store, h⟩
  · rw [h]
    exact .refl o
  · rw [h]
    exact ⟨rfl, rfl, rfl⟩

theorem Concludes.sameSetup {o : Oracle} {α : Type} {out : Outcome α} (h : o.Concludes out) :
    o.SameSetup out.2 := by
  cases h with
  | refused => exact .refl o
  | committed edits result => exact sameSetup_commit o edits result

/-- An issue counts on after its commit, and keeps what the commit keeps. -/
theorem sameSetup_issue (o : Oracle) (count : Nat) (kind : MeasurementKind)
    (currency : Option String) (now blockHeight : UInt64) :
    o.SameSetup (o.issue count kind currency now blockHeight).2 := by
  unfold issue
  dsimp only
  split
  · exact .refl o
  · generalize hcommit : o.commit _ _ = out
    have h := hcommit ▸ sameSetup_commit o _ _
    rcases out with ⟨_ | _, o'⟩
    · exact h
    · exact ⟨h.directory_eq, h.params_eq, h.targets_eq⟩

theorem sameSetup_issueForTarget (o : Oracle) (target : UInt64) (kind : MeasurementKind)
    (currency : Option String) (now blockHeight : UInt64) :
    o.SameSetup (o.issueForTarget target kind currency now blockHeight).2 := by
  unfold issueForTarget
  split
  · exact sameSetup_issue ..
  · exact .refl o

/-- No request changes who the users are or what is required of observations. -/
theorem sameSetup_after (o : Oracle) (r : Request) : o.SameSetup (o.after r) := by
  cases r with
  | issue => exact sameSetup_issue ..
  | issueForTarget => exact sameSetup_issueForTarget ..
  | submitWater s now => exact (concludes_submit o s now).sameSetup
  | submitRate s now => exact (concludes_submit o s now).sameSetup
  | endorse => exact (concludes_endorse ..).sameSetup
  | expireInvites => exact sameSetup_commit ..
  | prune => exact sameSetup_commit ..
  | rollUpDay => exact (clerical_rollUpDay ..).concludes.sameSetup
  | registerUrl => exact (clerical_registerUrl ..).concludes.sameSetup
  | endorseUrl => exact (clerical_endorseUrl ..).concludes.sameSetup
  | recordUrlCheck => exact (clerical_recordUrlCheck ..).concludes.sameSetup

/-! ## The feed -/

/-- The feed is made of the observations alone. -/
theorem SameSetup.feed_eq {o o' : Oracle} (h : o.SameSetup o')
    (hwater : o'.tables.water = o.tables.water) (hrates : o'.tables.rates = o.tables.rates) :
    o'.feed = o.feed := by
  have hprices : o'.waterAverage? = o.waterAverage? := by
    funext currency days now
    simp only [waterAverage?, waterSummary?, summarize?, waterWindow, Tables.waterPrices, hwater,
      h.params_eq]
  have hexchange : o'.exchangeAverage? = o.exchangeAverage? := by
    funext base quote days now
    simp only [exchangeAverage?, exchangeSummary?, summarize?, exchangeWindow,
      Tables.exchangeRates, hrates, h.params_eq]
  simp only [feed, Tables.currencies, Tables.currenciesAt, hwater, hrates, hprices, hexchange]

theorem feed_commit {α : Type} (o : Oracle) {edits : List Edit} (result : α)
    (h : ∀ e ∈ edits, e.KeepsReadings) : (o.commit edits result).2.feed = o.feed := by
  obtain ⟨hwater, hrates⟩ := o.readings_commit result h
  exact (sameSetup_commit o edits result).feed_eq hwater hrates

theorem Clerical.feed_eq {α : Type} {o : Oracle} {out : Outcome α} (h : o.Clerical out) :
    out.2.feed = o.feed := by
  obtain ⟨hwater, hrates⟩ := Prod.mk.inj
    (h.keeps Tables.readings fun e he => Tables.readings_apply he.keepsReadings)
  exact h.concludes.sameSetup.feed_eq hwater hrates

theorem feed_expireInvites (o : Oracle) (now : UInt64) : (o.expireInvites now).2.feed = o.feed := by
  refine feed_commit o _ ?_
  intro e he
  obtain ⟨i, -, rfl⟩ := List.mem_map.1 he
  trivial

/-- What a day that was rolled up has, and leaves. -/
theorem rollUpDay_of_ok {o o' : Oracle} {date : Date} {blockHeight : UInt64}
    {rollups : List Rollup} (h : o.rollUpDay date blockHeight = (.ok rollups, o')) :
    ∃ start stop, date.bounds? = some (start, stop) ∧
      rollups = (o.tables.currenciesAt fun time => start ≤ time && time ≤ stop).map
        (o.rollup · date start stop blockHeight) ∧
      o'.tables = (rollups.map .putRollup).foldl Tables.apply o.tables := by
  unfold rollUpDay at h
  split at h
  · exact nomatch h
  · next start stop hbounds =>
    dsimp only at h
    generalize hrollups : (o.tables.currenciesAt fun time => start ≤ time && time ≤ stop).map
      (o.rollup · date start stop blockHeight) = found at h
    rcases o.commit_cases (found.map .putRollup) found with ⟨why, hcommit⟩ | ⟨store, hcommit⟩
    · exact nomatch hcommit.symm.trans h
    · obtain ⟨hfound, rfl⟩ := Prod.mk.inj (h.symm.trans hcommit)
      obtain rfl := Except.ok.inj hfound
      exact ⟨start, stop, hbounds, hrollups.symm, rfl⟩

/-! ## A store that never fails -/

theorem expireInvites_of_writesLeft {o : Oracle} (h : o.store.writesLeft = none) (now : UInt64) :
    ∃ count o', o.expireInvites now = (.ok count, o') ∧ o'.store.writesLeft = none := by
  obtain ⟨store, hstore, hcommit⟩ := commit_of_writesLeft o _ _ h
  exact ⟨_, _, hcommit, hstore⟩

theorem rollUpDay_of_writesLeft {o : Oracle} (h : o.store.writesLeft = none) {date : Date}
    {bounds : UInt64 × UInt64} (hdate : date.bounds? = some bounds) (blockHeight : UInt64) :
    ∃ rollups o', o.rollUpDay date blockHeight = (.ok rollups, o') ∧
      o'.store.writesLeft = none := by
  unfold rollUpDay
  rw [hdate]
  obtain ⟨store, hstore, hcommit⟩ := commit_of_writesLeft o _ _ h
  exact ⟨_, _, hcommit, hstore⟩

end Oracle

end WaterPeg
