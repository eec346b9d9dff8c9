import WaterPeg.Proofs.Oracle.Lives
import WaterPeg.Proofs.Oracle.Verdicts

/-!
The sweep of expired invites. Whether an invite is over is read off its flag or off the clock, and a
sweep only turns the one into the other: what a user is told at a later time is what would have been
said without it.
-/
namespace WaterPeg

/-! ## Invites -/

namespace Invite

/-- The invite after a sweep: flagged, if it is open and its time is over. -/
def lapse (i : Invite) (swept : UInt64) : Invite :=
  { i with isExpired := i.isExpired || !i.isUsed && i.expiresAt ≤ swept }

variable (i : Invite) {swept now : UInt64}

theorem lapse_of_open (hused : i.isUsed = false) (hover : i.expiresAt ≤ swept) :
    i.lapse swept = { i with isExpired := true } := by
  simp [lapse, hused, hover]

/-- A sweep leaves the other invites alone. -/
theorem lapse_of_not (h : (!i.isUsed && !i.isExpired && i.expiresAt ≤ swept) = false) :
    i.lapse swept = i := by
  have hflag : (i.isExpired || !i.isUsed && i.expiresAt ≤ swept) = i.isExpired := by
    revert h
    cases i.isExpired <;> cases i.isUsed <;> simp
  unfold lapse
  rw [hflag]

variable (hle : swept ≤ now)

include hle

/-- At a later time the flag says nothing that the clock does not. -/
theorem isExpired_lapse :
    ((i.lapse swept).isExpired || i.expiresAt ≤ now) = (i.isExpired || i.expiresAt ≤ now) := by
  by_cases hover : i.expiresAt ≤ swept
  · have hlater : i.expiresAt ≤ now := UInt64.le_trans hover hle
    simp [hlater]
  · simp [lapse, hover]

theorem isValidAt_lapse : (i.lapse swept).isValidAt now = i.isValidAt now := by
  by_cases hover : i.expiresAt ≤ swept
  · have hlater : ¬now < i.expiresAt := UInt64.not_lt.2 (UInt64.le_trans hover hle)
    simp [isValidAt, lapse, hlater]
  · simp [isValidAt, lapse, hover]

theorem isOver_lapse :
    (!(i.lapse swept).isUsed && ((i.lapse swept).isExpired || (i.lapse swept).expiresAt ≤ now)) =
      (!i.isUsed && (i.isExpired || i.expiresAt ≤ now)) := by
  change (!i.isUsed && ((i.lapse swept).isExpired || i.expiresAt ≤ now)) = _
  rw [i.isExpired_lapse hle]

end Invite

def Tables.lapsedAt (t : Tables) (swept : UInt64) : Tables :=
  { t with invites := t.invites.map fun _ i => i.lapse swept }

namespace Oracle

/-- A sweep that is written down flags each invite whose time is over, and no other. -/
theorem foldl_lapsed {o : Oracle} (hkeyed : o.tables.Keyed) (swept : UInt64) :
    ((o.lapsed swept).map fun i => .putInvite { i with isExpired := true }).foldl Tables.apply
      o.tables = o.tables.lapsedAt swept := by
  rw [o.tables.foldl_putInvite fun i => { i with isExpired := true }, Tables.lapsedAt]
  congr 1
  refine Std.ExtTreeMap.ext_getElem? fun id => ?_
  rw [Std.ExtTreeMap.getElem?_map]
  rcases Table.getElem?_foldl_insert_cases Invite.id (fun i => { i with isExpired := true })
    (o.lapsed swept) o.tables.invites id with ⟨i, hi, rfl, hget⟩ | ⟨hother, hget⟩
  · obtain ⟨hvalue, hopen⟩ := List.mem_filter.1 hi
    obtain ⟨k, hk⟩ := Table.mem_values.1 hvalue
    obtain rfl := hkeyed.invites k i hk
    simp only [Bool.and_eq_true, Bool.not_eq_eq_eq_not, Bool.not_true, decide_eq_true_eq] at hopen
    rw [hget, hk, Option.map_some, i.lapse_of_open hopen.1.1 hopen.2]
  · rw [hget]
    cases hi : o.tables.invites[id]? with
    | none => rfl
    | some i =>
      have hvalue : i ∈ o.tables.invites.values := Table.mem_values.2 ⟨id, hi⟩
      have hkept : (!i.isUsed && !i.isExpired && i.expiresAt ≤ swept) = false := by
        refine Bool.eq_false_iff.2 fun hover => ?_
        exact hother i (List.mem_filter.2 ⟨hvalue, hover⟩) (hkeyed.invites id i hi)
      rw [Option.map_some, i.lapse_of_not hkept]

/-- Over a store that never fails a sweep is written down. -/
theorem expireInvites_eq {o : Oracle} (hkeyed : o.tables.Keyed) (hstore : o.store.writesLeft = none)
    (swept : UInt64) :
    ∃ store : Store, store.writesLeft = none ∧
      (o.expireInvites swept).2 = { o with store, tables := o.tables.lapsedAt swept } := by
  have hcommit := o.commit_of_writesLeft
    ((o.lapsed swept).map fun i => .putInvite { i with isExpired := true }) (o.lapsed swept).length
    hstore
  obtain ⟨store, hwrites, hcommit⟩ := hcommit
  refine ⟨store, hwrites, (congrArg Prod.snd hcommit).trans ?_⟩
  dsimp only
  rw [foldl_lapsed hkeyed]

/-! ## What users are told -/

/-- At this time two oracles take and refuse the same submissions, hold the same invites valid,
count the same records, and give the same averages and targets. -/
structure SameToUsers (o q : Oracle) (now : UInt64) : Prop where
  submitWater : ∀ s : Submission WaterOffer, (q.submit s now).1 = (o.submit s now).1
  submitRate : ∀ s : Submission ExchangeRate, (q.submit s now).1 = (o.submit s now).1
  isInviteValid : ∀ id, q.isInviteValid id now = o.isInviteValid id now
  statistics : q.statistics now = o.statistics now
  waterSummary : ∀ currency days, q.waterSummary? currency days now = o.waterSummary? currency days now
  exchangeSummary : ∀ base quote days,
    q.exchangeSummary? base quote days now = o.exchangeSummary? base quote days now
  waterAverage : ∀ currency days, q.waterAverage? currency days now = o.waterAverage? currency days now
  exchangeAverage : ∀ base quote days,
    q.exchangeAverage? base quote days now = o.exchangeAverage? base quote days now
  theoreticalRate : ∀ currency, q.theoreticalRate currency now = o.theoreticalRate currency now
  rateDeviation : ∀ currency measured,
    q.rateDeviation currency measured now = o.rateDeviation currency measured now
  target : ∀ kind currency, q.target? kind currency now = o.target? kind currency now

section

variable {o : Oracle} {swept now : UInt64} (hle : swept ≤ now)

include hle

/-- An invite answers a submission after the sweep exactly if it does without. One that is over by
the time of the sweep is refused as used first, and as expired else, flagged or not. -/
theorem usableInvite_lapsedAt (store : Store) (id : Digest) (submitter : String)
    (answers : MeasurementKind → Bool) (currency : String) :
    usableInvite { o with store, tables := o.tables.lapsedAt swept } id submitter answers currency
      now = o.usableInvite id submitter answers currency now := by
  unfold usableInvite Tables.lapsedAt
  dsimp only
  rw [Std.ExtTreeMap.getElem?_map]
  cases o.tables.invites[id]? with
  | none => rfl
  | some i =>
    dsimp only [Option.map_some]
    by_cases hkept : (!i.isUsed && !i.isExpired && i.expiresAt ≤ swept) = false
    · rw [i.lapse_of_not hkept]
    · simp only [Bool.not_eq_false, Bool.and_eq_true, Bool.not_eq_eq_eq_not, Bool.not_true,
        decide_eq_true_eq] at hkept
      obtain ⟨⟨hused, -⟩, hover⟩ := hkept
      have hlater : i.expiresAt ≤ now := UInt64.le_trans hover hle
      simp [i.lapse_of_open hused hover, hused, hlater]

theorem fst_submit_lapsedAt {ω α : Type} [Quantity ω α] [SeriesQuantity ω]
    (hstore : o.store.writesLeft = none) {store : Store} (hwrites : store.writesLeft = none)
    (s : Submission ω) :
    (submit { o with store, tables := o.tables.lapsedAt swept } s now).1 = (o.submit s now).1 := by
  have hscreen : screen { o with store, tables := o.tables.lapsedAt swept } s now =
      o.screen s now := screen_congr rfl (usableInvite_lapsedAt hle ..)
  refine fst_submit_congr (verdict_congr hscreen fun _ measured _ => ?_) ?_ ?_
  · refine appraise_congr ?_ ?_ ?_
    · rfl
    · cases SeriesQuantity.series ω measured <;> rfl
    · cases SeriesQuantity.series ω measured <;> rfl
  · simp [hstore]
  · simp [hwrites]

theorem statistics_lapsedAt (store : Store) :
    statistics { o with store, tables := o.tables.lapsedAt swept } now = o.statistics now := by
  have hopen : (fun i : Invite => i.isValidAt now) ∘ (fun i : Invite => i.lapse swept) =
      fun i : Invite => i.isValidAt now := funext fun i => i.isValidAt_lapse hle
  have hover : (fun i : Invite => !i.isUsed && (i.isExpired || i.expiresAt ≤ now)) ∘
      (fun i : Invite => i.lapse swept) =
        fun i : Invite => !i.isUsed && (i.isExpired || i.expiresAt ≤ now) :=
    funext fun i => i.isOver_lapse hle
  have hused : Invite.isUsed ∘ (fun i : Invite => i.lapse swept) = Invite.isUsed := rfl
  simp only [statistics, Tables.lapsedAt, Table.values_map, List.countP_map, hopen, hover, hused]
  rfl

theorem sameToUsers_lapsedAt (hstore : o.store.writesLeft = none) {store : Store}
    (hwrites : store.writesLeft = none) :
    o.SameToUsers { o with store, tables := o.tables.lapsedAt swept } now where
  submitWater := fst_submit_lapsedAt hle hstore hwrites
  submitRate := fst_submit_lapsedAt hle hstore hwrites
  isInviteValid id := by
    simp only [isInviteValid, Tables.lapsedAt, Std.ExtTreeMap.getElem?_map, Option.any_map]
    congr 1
    exact funext fun i => i.isValidAt_lapse hle
  statistics := statistics_lapsedAt hle store
  waterSummary _ _ := rfl
  exchangeSummary _ _ _ := rfl
  waterAverage _ _ := rfl
  exchangeAverage _ _ _ := rfl
  theoreticalRate _ := rfl
  rateDeviation _ _ := rfl
  target _ _ := rfl

end

/-- Over a store that does not fail, a sweep shows in nothing that users are told at its time or
later. -/
theorem sweep_unobservable {store : Store} {directory : Directory} {config : Config} {o : Oracle}
    (hbegin : begin? store directory config = .ok o) (life : List Chapter)
    (hstore : (o.live life).store.writesLeft = none) {swept now : UInt64} (hle : swept ≤ now) :
    (o.live life).SameToUsers ((o.live life).after (.expireInvites swept)) now := by
  obtain ⟨store, hwrites, hafter⟩ := expireInvites_eq (keyed_live hbegin life) hstore swept
  change (o.live life).SameToUsers ((o.live life).expireInvites swept).2 now
  rw [hafter]
  exact sameToUsers_lapsedAt hle hstore hwrites

def adasSilence : List Chapter :=
  [.event (.request (.issue 1 .waterPrice (some "OUSD") 1750000000 1))]

/-- The sweep comes in the very second in which her time is over. -/
theorem sweep_unobservable_to_ada :
    (((fresh adaAlone {}).live adasSilence).lapsed 1750604800).length = 1 ∧
      ((fresh adaAlone {}).live adasSilence).SameToUsers
        (((fresh adaAlone {}).live adasSilence).after (.expireInvites 1750604800)) 1750604800 := by
  have hbegin : begin? .empty adaAlone {} = .ok (fresh adaAlone {}) := rfl
  have hlapsed : (((fresh adaAlone {}).live adasSilence).lapsed 1750604800).length = 1 := by
    decide +kernel
  have hstore : ((fresh adaAlone {}).live adasSilence).store.writesLeft = none := by
    decide +kernel
  exact ⟨hlapsed, sweep_unobservable hbegin adasSilence hstore (UInt64.le_refl _)⟩

end Oracle

end WaterPeg
