import WaterPeg.Proofs.Calendar.Days
import WaterPeg.Proofs.Peg.Replays

/-!
Which days are rolled up over the life of a store, on which one peg may be opened after another. The
latest date is not stored, so that a peg rolls up the latest day of the blocks since it was opened,
and none with its first block.
-/
namespace WaterPeg

/-! ## Rollups -/

def Tables.Observed (t : Tables) (currency : String) (date : Date) : Prop :=
  (∃ (id : Digest) (r : Reading WaterPrice), t.water[id]? = some r ∧ r.measured.currency = currency ∧
      Date.ofTime? r.timestamp = some date) ∨
    ∃ (id : Digest) (r : Reading ExchangeRate), t.rates[id]? = some r ∧ r.measured.base = currency ∧
      Date.ofTime? r.timestamp = some date

theorem Tables.mem_currenciesAt_of_observed {t : Tables} {currency : String} {date : Date}
    (h : t.Observed currency date) {start stop : UInt64} (hbounds : date.bounds? = some (start, stop)) :
    currency ∈ t.currenciesAt fun time => start ≤ time && time ≤ stop := by
  have hwithin {time : UInt64} (hdate : Date.ofTime? time = some date) :
      (decide (start ≤ time) && decide (time ≤ stop)) = true := by
    obtain ⟨start', stop', hbounds', hstart, hstop⟩ := Date.bounds_of_ofTime? hdate
    obtain ⟨rfl, rfl⟩ := Prod.mk.inj (Option.some.inj (hbounds.symm.trans hbounds'))
    rw [decide_eq_true hstart, decide_eq_true hstop]
    rfl
  unfold currenciesAt
  rw [mem_toList_insertMany, List.mem_append]
  rcases h with ⟨id, r, hr, rfl, hdate⟩ | ⟨id, r, hr, rfl, hdate⟩
  · exact Or.inl (List.mem_map.2
      ⟨r, List.mem_filter.2 ⟨Table.mem_values.2 ⟨id, hr⟩, hwithin hdate⟩, rfl⟩)
  · exact Or.inr (List.mem_map.2
      ⟨r, List.mem_filter.2 ⟨Table.mem_values.2 ⟨id, hr⟩, hwithin hdate⟩, rfl⟩)

theorem Tables.rollups_foldl_putRollup (t : Tables) (rollups : List Rollup) :
    ((rollups.map .putRollup).foldl apply t).rollups =
      rollups.foldl (fun m r => m.insert r.key r) t.rollups := by
  induction rollups generalizing t with
  | nil => rfl
  | cons r rollups ih => exact ih _

/-- A day that is rolled up has a rollup of each currency with observations. -/
theorem Oracle.rollup_of_rollUpDay {o o' : Oracle} {date : Date} {blockHeight : UInt64}
    {rollups : List Rollup} (h : o.rollUpDay date blockHeight = (.ok rollups, o'))
    {currency : String} (hobserved : o.tables.Observed currency date) :
    ∃ r, o'.tables.rollups[(⟨currency, date⟩ : DayKey)]? = some r := by
  obtain ⟨start, stop, hbounds, hrollups, htables⟩ := rollUpDay_of_ok h
  have hcurrency := Tables.mem_currenciesAt_of_observed hobserved hbounds
  rw [htables, o.tables.rollups_foldl_putRollup]
  rcases Table.getElem?_foldl_insert_cases Rollup.key id rollups o.tables.rollups
    ⟨currency, date⟩ with ⟨r, -, -, hget⟩ | ⟨hother, -⟩
  · exact ⟨r, hget⟩
  · refine absurd rfl (hother (o.rollup currency date start stop blockHeight) ?_)
    rw [hrollups]
    exact List.mem_map_of_mem hcurrency

theorem Oracle.observed_expireInvites {o : Oracle} {currency : String} {date : Date}
    (h : o.tables.Observed currency date) (now : UInt64) :
    (o.expireInvites now).2.tables.Observed currency date := by
  have hkept : (o.expireInvites now).2.tables.water = o.tables.water ∧
      (o.expireInvites now).2.tables.rates = o.tables.rates := by
    refine readings_commit o _ ?_
    intro e he
    obtain ⟨i, -, rfl⟩ := List.mem_map.1 he
    trivial
  unfold Tables.Observed
  rw [hkept.1, hkept.2]
  exact h

namespace Peg

/-! ## The latest date -/

def IsLatest (d : Date) (dates : List Date) : Prop :=
  d ∈ dates ∧ ∀ e ∈ dates, isEarlier d e = false

theorem isEarlier_eq_true_iff {a b : Date} : isEarlier a b ↔ compare a b = .lt := by
  unfold isEarlier
  cases compare a b <;> simp

theorem eq_of_isLatest {d e : Date} {dates : List Date} (hd : IsLatest d dates)
    (he : IsLatest e dates) : d = e := by
  have hde := hd.2 e he.1
  have hed := he.2 d hd.1
  cases hcompare : compare d e with
  | lt => exact nomatch hde.symm.trans (isEarlier_eq_true_iff.2 hcompare)
  | eq => exact Std.LawfulEqCmp.eq_of_compare hcompare
  | gt =>
    have hlt := Std.OrientedCmp.lt_of_gt hcompare
    exact nomatch hed.symm.trans (isEarlier_eq_true_iff.2 hlt)

theorem isLatest_singleton (d : Date) : IsLatest d [d] :=
  ⟨List.mem_cons_self, fun e he => by rw [List.mem_singleton.1 he]; exact isEarlier_self d⟩

theorem isLatest_concat_of_isEarlier {d today : Date} {dates : List Date} (h : IsLatest d dates)
    (hearlier : isEarlier d today) : IsLatest today (dates ++ [today]) := by
  refine ⟨List.mem_append_right _ List.mem_cons_self, fun e he => ?_⟩
  rcases List.mem_append.1 he with he | he
  · refine Bool.eq_false_iff.2 fun hlater => ?_
    have hlt := Std.TransCmp.lt_trans (isEarlier_eq_true_iff.1 hearlier)
      (isEarlier_eq_true_iff.1 hlater)
    exact nomatch (h.2 e he).symm.trans (isEarlier_eq_true_iff.2 hlt)
  · rw [List.mem_singleton.1 he]
    exact isEarlier_self today

theorem isLatest_concat_of_not_isEarlier {d today : Date} {dates : List Date} (h : IsLatest d dates)
    (hearlier : isEarlier d today = false) : IsLatest d (dates ++ [today]) := by
  refine ⟨List.mem_append_left _ h.1, fun e he => ?_⟩
  rcases List.mem_append.1 he with he | he
  · exact h.2 e he
  · rw [List.mem_singleton.1 he]
    exact hearlier

def KeepsLatest (dates : List Date) : Option Date → Prop
  | none => dates = []
  | some d => IsLatest d dates

/-! ## Lives -/

inductive Chapter
  | request (r : Request)
  | reopen (directory : Directory) (config : Config)

/-- The peg over the store after a chapter. Where no other can be opened, the former stays. -/
def through (p : Peg) : Chapter → Peg
  | .request r => p.after r
  | .reopen directory config =>
    match open? p.oracle.store directory config with
    | .ok q => q
    | .error _ => p

def live (p : Peg) (life : List Chapter) : Peg := life.foldl through p

/-- No block fails in the chapter, and no opening. -/
def Chapter.Succeeds (p : Peg) : Chapter → Prop
  | .request (.processBlock block) => ∃ report, (p.processBlock block).1 = .ok report
  | .request _ => True
  | .reopen directory config => ∃ q, open? p.oracle.store directory config = .ok q

def Succeeds (p : Peg) : List Chapter → Prop
  | [] => True
  | c :: life => c.Succeeds p ∧ (p.through c).Succeeds life

def Request.date? : Request → Option Date
  | .processBlock block => Date.ofTime? block.timestamp
  | .prune _ _ | .issueDaily _ _ _ | .oracle _ | .stabilizer _ | .restore _ _ _ | .store _ => none

def Chapter.date? : Chapter → Option Date
  | .request r => r.date?
  | .reopen _ _ => none

def dates (life : List Chapter) : List Date := life.filterMap Chapter.date?

def Chapter.follow (since : List Chapter) : Chapter → List Chapter
  | .request r => since ++ [.request r]
  | .reopen _ _ => []

/-- What follows the last opening of a life. -/
def sinceOpening (life : List Chapter) : List Chapter := life.foldl Chapter.follow []

theorem dates_concat (life : List Chapter) (c : Chapter) :
    dates (life ++ [c]) = dates life ++ c.date?.toList := by
  unfold dates
  rw [List.filterMap_append]
  cases h : c.date? <;> simp [h]

theorem sinceOpening_concat_request (life : List Chapter) (r : Request) :
    sinceOpening (life ++ [.request r]) = sinceOpening life ++ [.request r] := List.foldl_append ..

theorem sinceOpening_concat_reopen (life : List Chapter) (directory : Directory) (config : Config) :
    sinceOpening (life ++ [.reopen directory config]) = [] := List.foldl_append ..

section

variable {p q : Peg} {block : Block}

theorem lastDate_store (p : Peg) (batch : Batch) : (p.store batch).2.lastDate = p.lastDate := by
  unfold store
  split <;> rfl

theorem day_settle (p : Peg) (block : Block) :
    (p.settle block).2.lastDate = p.lastDate ∧ (p.settle block).2.oracle.tables = p.oracle.tables := by
  refine settle_snd (P := fun q => q.lastDate = p.lastDate ∧ q.oracle.tables = p.oracle.tables)
    ⟨rfl, rfl⟩ (fun _ _ hq => hq) fun q batch hq => ?_
  rw [lastDate_store, tables_store]
  exact hq

/-- The day turns once the invites have expired, and settling leaves it. -/
theorem turnDay_of_processBlock {report : BlockReport} (h : p.processBlock block = (.ok report, q)) :
    ∃ today count p₁ p₂, Date.ofTime? block.timestamp = some today ∧
      (p.withOracle fun o => o.expireInvites block.timestamp) = (.ok count, p₁) ∧
      p₁.turnDay today block.height = (.ok report.rolledUp, p₂) ∧ q.lastDate = p₂.lastDate ∧
      q.oracle.tables = p₂.oracle.tables := by
  unfold processBlock at h
  split at h
  · exact nomatch h
  · next today hdate =>
    obtain ⟨count, p₁, hexpired, h⟩ := Outcome.andThen_of_ok h
    obtain ⟨rolledUp, p₂, hturned, h⟩ := Outcome.andThen_of_ok h
    obtain ⟨settled, q', hsettled, h⟩ := Outcome.andThen_of_ok h
    obtain ⟨hreport, rfl⟩ := Prod.mk.inj h
    obtain rfl := Except.ok.inj hreport
    have hday := p₂.day_settle block
    rw [hsettled] at hday
    exact ⟨today, count, p₁, p₂, hdate, hexpired, hturned, hday.1, hday.2⟩

/-- A block rolls up the latest day if a later one has begun. -/
theorem rolledUp_of_processBlock {dates : List Date} (hlatest : KeepsLatest dates p.lastDate)
    {report : BlockReport} (h : p.processBlock block = (.ok report, q)) :
    ∃ today, Date.ofTime? block.timestamp = some today ∧
      KeepsLatest (dates ++ [today]) q.lastDate ∧
      ∀ d, report.rolledUp = some d ↔ IsLatest d dates ∧ isEarlier d today := by
  obtain ⟨today, count, p₁, p₂, hdate, hexpired, hturned, hlast, -⟩ := turnDay_of_processBlock h
  obtain ⟨-, rfl⟩ := Prod.mk.inj hexpired
  refine ⟨today, hdate, ?_⟩
  rw [hlast]
  rcases turnDay_of_ok hturned with ⟨hnone, hrolled, rfl⟩ | ⟨last, hsome, hearlier, hrolled, rfl⟩ |
    ⟨last, rollups, o, hsome, hearlier, hrolled, -, rfl⟩
  · change p.lastDate = none at hnone
    rw [hnone] at hlatest
    obtain rfl : dates = [] := hlatest
    refine ⟨isLatest_singleton today, fun d => ?_⟩
    rw [hrolled]
    exact iff_of_false nofun fun hd => nomatch hd.1.1
  · change p.lastDate = some last at hsome
    rw [hsome] at hlatest
    refine ⟨?_, fun d => ?_⟩
    · change KeepsLatest _ p.lastDate
      rw [hsome]
      exact isLatest_concat_of_not_isEarlier hlatest hearlier
    · rw [hrolled]
      refine iff_of_false nofun fun hd => ?_
      rw [eq_of_isLatest hd.1 hlatest, hearlier] at hd
      exact nomatch hd.2
  · change p.lastDate = some last at hsome
    rw [hsome] at hlatest
    refine ⟨isLatest_concat_of_isEarlier hlatest hearlier, fun d => ?_⟩
    rw [hrolled]
    constructor
    · rintro ⟨⟩
      exact ⟨hlatest, hearlier⟩
    · intro hd
      rw [eq_of_isLatest hd.1 hlatest]

/-- Where a block rolls up a day, each currency with observations from it has a rollup. -/
theorem rollup_of_processBlock {report : BlockReport} (h : p.processBlock block = (.ok report, q))
    {d : Date} (hd : report.rolledUp = some d) {currency : String}
    (hobserved : p.oracle.tables.Observed currency d) :
    ∃ r, q.oracle.tables.rollups[(⟨currency, d⟩ : DayKey)]? = some r := by
  obtain ⟨today, count, p₁, p₂, -, hexpired, hturned, -, htables⟩ := turnDay_of_processBlock h
  obtain ⟨-, rfl⟩ := Prod.mk.inj hexpired
  rw [hd] at hturned
  rcases turnDay_of_ok hturned with ⟨-, hnone, -⟩ | ⟨_, -, -, hnone, -⟩ |
    ⟨last, rollups, o, -, -, hlast, hday, rfl⟩
  · exact nomatch hnone
  · exact nomatch hnone
  · obtain rfl := Option.some.inj hlast
    rw [htables]
    exact Oracle.rollup_of_rollUpDay hday (Oracle.observed_expireInvites hobserved block.timestamp)

/-- Only a block changes the latest date. -/
theorem lastDate_after {r : Request} (hr : ∀ block, r ≠ .processBlock block) :
    (p.after r).lastDate = p.lastDate := by
  cases r with
  | processBlock block => exact absurd rfl (hr block)
  | prune cutoff height =>
    refine Outcome.andThen_snd (P := fun q => q.lastDate = p.lastDate) rfl fun _ => ?_
    refine Outcome.andThen_ok_snd (P := fun q => q.lastDate = p.lastDate) _ ?_
    exact eraseRecords_snd (P := fun q => q.lastDate = p.lastDate) rfl fun _ => lastDate_store ..
  | issueDaily currency now blockHeight =>
    exact issueDaily_snd (P := fun q => q.lastDate = p.lastDate) rfl fun _ _ _ hq => hq
  | oracle | stabilizer | restore | store => rfl

end

/-- The peg keeps the latest date since its opening, of the dates of the whole life. -/
structure Dated (past : List Chapter) (p : Peg) : Prop where
  latest : KeepsLatest (dates (sinceOpening past)) p.lastDate
  subset : ∀ d ∈ dates (sinceOpening past), d ∈ dates past

namespace Dated

variable {past : List Chapter} {p : Peg} (h : Dated past p)

include h

theorem through {c : Chapter} (hc : c.Succeeds p) : Dated (past ++ [c]) (p.through c) := by
  cases c with
  | reopen directory config =>
    obtain ⟨q, hq⟩ := hc
    have hthrough : p.through (.reopen directory config) = q := by simp only [Peg.through, hq]
    obtain ⟨-, -, -, hdate⟩ := exists_of_open? hq
    rw [hthrough]
    refine ⟨?_, ?_⟩
    · rw [sinceOpening_concat_reopen, hdate]
      rfl
    · rw [sinceOpening_concat_reopen]
      exact fun d hd => absurd hd (List.not_mem_nil (a := d))
  | request r =>
    have hsubset : ∀ d ∈ dates (sinceOpening (past ++ [.request r])),
        d ∈ dates (past ++ [.request r]) := by
      intro d hd
      rw [sinceOpening_concat_request, dates_concat, List.mem_append] at hd
      rw [dates_concat, List.mem_append]
      exact hd.imp_left (h.subset d)
    refine ⟨?_, hsubset⟩
    rw [sinceOpening_concat_request, dates_concat]
    by_cases hblock : ∃ block, r = .processBlock block
    · obtain ⟨block, rfl⟩ := hblock
      obtain ⟨report, hreport⟩ := hc
      obtain ⟨today, hdate, hlatest, -⟩ :=
        rolledUp_of_processBlock h.latest (Prod.ext hreport rfl)
      have hdates : (Chapter.request (.processBlock block)).date? = some today := hdate
      rw [hdates]
      exact hlatest
    · have hne : ∀ block, r ≠ .processBlock block := fun block hr => hblock ⟨block, hr⟩
      have hdates : (Chapter.request r).date? = none := by
        cases r with
        | processBlock block => exact absurd rfl (hne block)
        | _ => rfl
      rw [hdates, Option.toList_none, List.append_nil]
      change KeepsLatest _ (p.after r).lastDate
      rw [lastDate_after hne]
      exact h.latest

theorem live {life : List Chapter} (hlife : p.Succeeds life) : Dated (past ++ life) (p.live life) := by
  induction life generalizing past p with
  | nil => exact (List.append_nil past).symm ▸ h
  | cons c life ih =>
    have hrest := ih (h.through hlife.1) hlife.2
    rwa [List.append_assoc, List.singleton_append] at hrest

end Dated

theorem dated_of_open? {store : Store} {directory : Directory} {config : Config} {p : Peg}
    (h : open? store directory config = .ok p) : Dated [] p := by
  obtain ⟨-, -, -, hdate⟩ := exists_of_open? h
  refine ⟨?_, fun d hd => hd⟩
  rw [hdate]
  rfl

/-- In a life of a store in which no block fails, and no opening, a block rolls up the latest day of
the blocks since the opening if it is of a later day itself, and then each currency with observations
from that day has a rollup of it. So with a block of a later day than all before the latest day of all
is rolled up exactly if it was reached since the opening. With a block of no later day none is rolled
up exactly if the block is not of a later day than those since the opening either. -/
theorem rolledUp_of_life {store : Store} {directory : Directory} {config : Config} {p q : Peg}
    (hopen : open? store directory config = .ok p) {life : List Chapter} (hlife : p.Succeeds life)
    {block : Block} {report : BlockReport}
    (h : (p.live life).processBlock block = (.ok report, q)) :
    ∃ today, Date.ofTime? block.timestamp = some today ∧
      (∀ d, report.rolledUp = some d ↔
        IsLatest d (dates (sinceOpening life)) ∧ isEarlier d today) ∧
      (∀ d, report.rolledUp = some d → ∀ currency,
        (p.live life).oracle.tables.Observed currency d →
          ∃ r, q.oracle.tables.rollups[(⟨currency, d⟩ : DayKey)]? = some r) ∧
      ∀ latest, IsLatest latest (dates life) →
        (report.rolledUp = (if isEarlier latest today then some latest else none) ↔
          if isEarlier latest today then latest ∈ dates (sinceOpening life)
          else ∀ d, IsLatest d (dates (sinceOpening life)) → ¬ isEarlier d today) := by
  have hdated : Dated ([] ++ life) (p.live life) := (dated_of_open? hopen).live hlife
  rw [List.nil_append] at hdated
  obtain ⟨today, hdate, -, hrolled⟩ := rolledUp_of_processBlock hdated.latest h
  refine ⟨today, hdate, hrolled, fun d hd currency => rollup_of_processBlock h hd,
    fun latest hlatest => ?_⟩
  split
  · next hearlier =>
    rw [hrolled, and_iff_left hearlier]
    exact ⟨And.left, fun hmem => ⟨hmem, fun e he => hlatest.2 e (hdated.subset e he)⟩⟩
  · rw [Option.eq_none_iff_forall_ne_some]
    refine forall_congr' fun d => ?_
    rw [ne_eq, hrolled, not_and]

theorem exists_report_of_toOption_isSome {p : Peg} {block : Block}
    (h : (p.processBlock block).1.toOption.isSome) :
    ∃ report q, p.processBlock block = (.ok report, q) := by
  obtain ⟨report, hreport⟩ := Option.isSome_iff_exists.1 h
  exact ⟨report, _, Prod.ext (toOption_eq_some_iff.1 hreport) rfl⟩

def emptyBlock (height timestamp : UInt64) : Block := ⟨height, timestamp, .zero, ∅⟩

/-- Ada sends a price, a block is processed, and another peg is opened. -/
def restartedLife : List Chapter :=
  [.request (.oracle (.issue 2 .waterPrice (some "OUSD") 1750000000 1)),
    .request (.oracle (.submitWater Oracle.adasPrice 1750000060)),
    .request (.processBlock (emptyBlock 1 1750000060)), .reopen Oracle.adaAlone {}]

def restartedDay : Date := ⟨2025, 6, 15, by decide, by decide, by decide⟩

/-- The block of the next day does not roll up the latest day of all blocks where another peg was
opened, and does otherwise. -/
theorem rolledUp_of_restartedLife :
    (IsLatest restartedDay (dates restartedLife) ∧
      ∃ report q, ((fresh Oracle.adaAlone {}).live restartedLife).processBlock
        (emptyBlock 2 1750086400) = (.ok report, q) ∧ report.rolledUp = none) ∧
      ∃ report q r, ((fresh Oracle.adaAlone {}).live (restartedLife.take 3)).processBlock
        (emptyBlock 2 1750086400) = (.ok report, q) ∧ report.rolledUp = some restartedDay ∧
        q.oracle.tables.rollups[(⟨"OUSD", restartedDay⟩ : DayKey)]? = some r := by
  have hopen : open? .empty Oracle.adaAlone {} = .ok (fresh Oracle.adaAlone {}) :=
    open?_empty Oracle.adaAlone rfl
  have hfirst : (((fresh Oracle.adaAlone {}).live (restartedLife.take 2)).processBlock
      (emptyBlock 1 1750000060)).1.toOption.isSome := by decide +kernel
  obtain ⟨first, hfirst⟩ := Option.isSome_iff_exists.1 hfirst
  have hsteady : (fresh Oracle.adaAlone {}).Succeeds (restartedLife.take 3) :=
    ⟨trivial, trivial, ⟨first, toOption_eq_some_iff.1 hfirst⟩, trivial⟩
  have hreopened : (open? ((fresh Oracle.adaAlone {}).live (restartedLife.take 3)).oracle.store
      Oracle.adaAlone {}).toOption.isSome := by decide +kernel
  obtain ⟨reopened, hreopened⟩ := Option.isSome_iff_exists.1 hreopened
  have hreopens : Chapter.Succeeds ((fresh Oracle.adaAlone {}).live (restartedLife.take 3))
      (.reopen Oracle.adaAlone {}) := ⟨reopened, toOption_eq_some_iff.1 hreopened⟩
  have hrestarted : (fresh Oracle.adaAlone {}).Succeeds restartedLife :=
    ⟨trivial, trivial, ⟨first, toOption_eq_some_iff.1 hfirst⟩, hreopens, trivial⟩
  have htoday : Date.ofTime? (emptyBlock 2 1750086400).timestamp =
      some ⟨2025, 6, 16, by decide, by decide, by decide⟩ := by decide +kernel
  have hdates : dates restartedLife = [restartedDay] := by decide +kernel
  have hlatest := isLatest_singleton restartedDay
  refine ⟨⟨hdates ▸ hlatest, ?_⟩, ?_⟩
  · have hsecond : (((fresh Oracle.adaAlone {}).live restartedLife).processBlock
        (emptyBlock 2 1750086400)).1.toOption.isSome := by decide +kernel
    obtain ⟨report, q, hprocessed⟩ := exists_report_of_toOption_isSome hsecond
    obtain ⟨today, -, hrolled, -, -⟩ := rolledUp_of_life hopen hrestarted hprocessed
    refine ⟨report, q, hprocessed, Option.eq_none_iff_forall_ne_some.2 fun d hd => ?_⟩
    exact List.not_mem_nil ((hrolled d).1 hd).1.1
  · have hsecond : (((fresh Oracle.adaAlone {}).live (restartedLife.take 3)).processBlock
        (emptyBlock 2 1750086400)).1.toOption.isSome := by decide +kernel
    obtain ⟨report, q, hprocessed⟩ := exists_report_of_toOption_isSome hsecond
    obtain ⟨today, hdate, hrolled, hsaved, -⟩ := rolledUp_of_life hopen hsteady hprocessed
    obtain rfl := Option.some.inj (htoday.symm.trans hdate)
    have hsince : dates (sinceOpening (restartedLife.take 3)) = [restartedDay] := by decide +kernel
    have hday : report.rolledUp = some restartedDay :=
      (hrolled restartedDay).2 ⟨hsince ▸ hlatest, by decide⟩
    have hprices : ((fresh Oracle.adaAlone {}).live
        (restartedLife.take 3)).oracle.tables.water.values.map (fun r =>
          (r.measured.currency, Date.ofTime? r.timestamp)) = [("OUSD", some restartedDay)] := by
      decide +kernel
    obtain ⟨price, hprice, hfacts⟩ := List.mem_map.1 (hprices ▸ List.mem_cons_self)
    obtain ⟨id, hid⟩ := Table.mem_values.1 hprice
    obtain ⟨hcurrency, htime⟩ := Prod.mk.inj hfacts
    obtain ⟨r, hr⟩ := hsaved restartedDay hday "OUSD" (Or.inl ⟨id, price, hid, hcurrency, htime⟩)
    exact ⟨report, q, r, hprocessed, hday, hr⟩

end Peg

end WaterPeg
