import WaterPeg.Proofs.Peg.Runs
import WaterPeg.Proofs.Stabilizer.Plan

/-!
Checking a block against processing it. Both make a plan from the same judgement of the currencies:
what processing does before, it does to invites, rollups and the store alone.
-/
namespace WaterPeg

/-! ## Checking against a plan -/

theorem eq_of_zip_find? {α : Type} [DecidableEq α] {xs ys : List α} (hlength : xs.length = ys.length)
    (h : (xs.zip ys).find? (fun (x, y) => x ≠ y) = none) : xs = ys := by
  induction xs generalizing ys with
  | nil => exact (List.length_eq_zero_iff.1 hlength.symm).symm
  | cons x xs ih =>
    cases ys with
    | nil => exact nomatch hlength
    | cons y ys =>
      rw [List.zip_cons_cons, List.find?_cons] at h
      split at h
      · exact nomatch h
      · next hxy =>
        have hhead : x = y := by simpa using hxy
        have htail : xs = ys := ih (Nat.succ.inj hlength) h
        rw [hhead, htail]

namespace Stabilizer

variable {s : Stabilizer} {block : Block} {payouts : List Payout}

theorem validate_of_plan {planned : List Payout} (h : s.plan block = .ok planned) :
    s.validate block payouts =
      if planned.length ≠ payouts.length then .error (.count planned.length payouts.length)
      else
        match (planned.zip payouts).find? fun (want, got) => want ≠ got with
        | some (_, got) => .error (.mismatch got.currency got.id)
        | none => .ok () := by
  unfold validate
  rw [h]
  rfl

theorem validate_of_plan_error {e : IssuanceError} (h : s.plan block = .error e) :
    s.validate block payouts = .error e := by
  unfold validate
  rw [h]
  rfl

/-- A block is accepted with the payouts of its plan and with no others. -/
theorem validate_eq_ok_iff : s.validate block payouts = .ok () ↔ s.plan block = .ok payouts := by
  cases h : s.plan block with
  | error e => simp [validate_of_plan_error h]
  | ok planned =>
    rw [validate_of_plan h, Except.ok.injEq]
    constructor
    · intro hok
      split at hok
      · exact nomatch hok
      · next hlength =>
        split at hok
        · exact nomatch hok
        · next hfind => exact eq_of_zip_find? (Decidable.not_not.1 hlength) hfind
    · rintro rfl
      have hfind : (planned.zip planned).find? (fun (want, got) => want ≠ got) = none := by
        rw [List.zip_eq_zipWith, List.zipWith_self, List.find?_eq_none]
        simp
      rw [if_neg (Decidable.not_not.2 rfl), hfind]

/-- A check overflows exactly where the plan does. -/
theorem validate_eq_overflow_iff {c : String} :
    s.validate block payouts = .error (.overflow c) ↔ s.plan block = .error (.overflow c) := by
  cases h : s.plan block with
  | error e => rw [validate_of_plan_error h]; simp
  | ok planned =>
    rw [validate_of_plan h]
    constructor
    · intro hoverflow
      split at hoverflow
      · simp at hoverflow
      · split at hoverflow
        · simp at hoverflow
        · exact nomatch hoverflow
    · exact nofun

end Stabilizer

namespace Peg

/-! ## Before the judgement -/

/-- What processing a block does before the currencies are judged: invites expire and the day
turns. -/
def openDay (p : Peg) (block : Block) (today : Date) : Outcome (Nat × Option Date) :=
  (p.withOracle fun o => o.expireInvites block.timestamp).andThen fun expired p =>
    (p.turnDay today block.height).andThen fun rolledUp p => (.ok (expired, rolledUp), p)

def report (opened : Nat × Option Date) (settled : Nat × List Payout) : BlockReport :=
  ⟨opened.1, opened.2, settled.1, settled.2⟩

variable {p : Peg} {block : Block} {today : Date}

theorem processBlock_of_noDate (h : Date.ofTime? block.timestamp = none) :
    p.processBlock block = (.error (.noDate block.timestamp), p) := by
  unfold processBlock
  rw [h]

theorem processBlock_of_date (h : Date.ofTime? block.timestamp = some today) :
    p.processBlock block =
      (p.openDay block today).andThen fun opened p =>
        (p.settle block).andThen fun settled p => (.ok (report opened settled), p) := by
  unfold processBlock openDay
  rw [h, Outcome.andThen_assoc]
  refine Outcome.andThen_congr fun expired q => ?_
  rw [Outcome.andThen_assoc]
  refine Outcome.andThen_congr fun rolledUp r => ?_
  rw [Outcome.andThen_ok]
  exact Outcome.andThen_congr fun settled q => rfl

structure JudgesAlike (p q : Peg) : Prop where
  stabilizer_eq : q.stabilizer = p.stabilizer
  feed_eq : q.oracle.feed = p.oracle.feed

theorem JudgesAlike.trans {p q r : Peg} (hpq : p.JudgesAlike q) (hqr : q.JudgesAlike r) :
    p.JudgesAlike r :=
  ⟨hqr.stabilizer_eq.trans hpq.stabilizer_eq, hqr.feed_eq.trans hpq.feed_eq⟩

theorem JudgesAlike.reEvaluated_eq {p q : Peg} (h : p.JudgesAlike q) (block : Block) :
    q.reEvaluated block = p.reEvaluated block := by
  unfold reEvaluated
  rw [h.stabilizer_eq, h.feed_eq]

theorem judgesAlike_expireInvites (p : Peg) (now : UInt64) :
    p.JudgesAlike (p.withOracle fun o => o.expireInvites now).2 :=
  ⟨rfl, Oracle.feed_expireInvites p.oracle now⟩

theorem judgesAlike_turnDay (p : Peg) (today : Date) (height : UInt64) :
    p.JudgesAlike (p.turnDay today height).2 :=
  turnDay_snd (P := p.JudgesAlike) ⟨rfl, rfl⟩ (fun _ => ⟨rfl, (Oracle.clerical_rollUpDay ..).feed_eq⟩)
    fun _ h => ⟨h.stabilizer_eq, h.feed_eq⟩

/-- Neither expiry nor the rollup of a day changes what the currencies are judged by. -/
theorem judgesAlike_openDay (p : Peg) (block : Block) (today : Date) :
    p.JudgesAlike (p.openDay block today).2 := by
  have hexpired := judgesAlike_expireInvites p block.timestamp
  refine Outcome.andThen_snd hexpired fun _ => ?_
  exact Outcome.andThen_ok_snd _ (hexpired.trans (judgesAlike_turnDay _ today block.height))

/-! ## Over a store that never fails -/

theorem withOracle_of_ok {α : Type} {f : Oracle → Oracle.Outcome α} {a : α} {o : Oracle}
    (h : f p.oracle = (.ok a, o)) : p.withOracle f = (.ok a, { p with oracle := o }) := by
  unfold withOracle
  rw [h]
  rfl

theorem turnDay_of_writesLeft (hstore : p.oracle.store.writesLeft = none)
    (hbounds : ∀ d ∈ p.lastDate, ∃ b, d.bounds? = some b) (today : Date) (height : UInt64) :
    ∃ rolledUp q, p.turnDay today height = (.ok rolledUp, q) ∧
      q.oracle.store.writesLeft = none := by
  unfold turnDay
  split
  · exact ⟨_, _, rfl, hstore⟩
  · next last hlast =>
    split
    · obtain ⟨b, hb⟩ := hbounds last hlast
      obtain ⟨rollups, o, hrolled, ho⟩ := Oracle.rollUpDay_of_writesLeft hstore hb height
      refine ⟨some last, { p with oracle := o, lastDate := some today }, ?_, ho⟩
      rw [withOracle_of_ok hrolled]
      rfl
    · exact ⟨_, _, rfl, hstore⟩

theorem openDay_of_writesLeft (hstore : p.oracle.store.writesLeft = none)
    (hbounds : ∀ d ∈ p.lastDate, ∃ b, d.bounds? = some b) (block : Block) (today : Date) :
    ∃ expired rolledUp q, p.openDay block today = (.ok (expired, rolledUp), q) ∧
      q.oracle.store.writesLeft = none := by
  obtain ⟨expired, o, hexpired, ho⟩ := Oracle.expireInvites_of_writesLeft hstore block.timestamp
  obtain ⟨rolledUp, q, hturned, hq⟩ :=
    turnDay_of_writesLeft (p := { p with oracle := o }) ho hbounds today block.height
  refine ⟨expired, rolledUp, q, ?_, hq⟩
  unfold openDay
  rw [withOracle_of_ok hexpired]
  rw [Outcome.andThen_ok, hturned, Outcome.andThen_ok]

theorem fst_settle_of_writesLeft (hstore : p.oracle.store.writesLeft = none) (block : Block) :
    (p.settle block).1 = (((p.reEvaluated block).2.plan block).mapError .issuance).map
      fun payouts => ((p.reEvaluated block).1, payouts) := by
  unfold settle
  dsimp only
  cases hplan : (p.reEvaluated block).2.plan block with
  | error e =>
    rw [Stabilizer.create_eq_error_iff.2 hplan]
    rfl
  | ok payouts =>
    rw [Stabilizer.create_eq_ok_iff.2 ⟨hplan, rfl⟩]
    dsimp only
    unfold store
    rw [Store.applyBatch_of_writesLeft hstore]
    rfl

/-- What processing a block gives rests on the plan alone. -/
theorem fst_processBlock_of_writesLeft (hp : p.Sound) (hstore : p.oracle.store.writesLeft = none)
    (hdate : Date.ofTime? block.timestamp = some today) :
    ∃ opened, (p.processBlock block).1 =
      (((p.reEvaluated block).2.plan block).mapError .issuance).map fun payouts =>
        report opened ((p.reEvaluated block).1, payouts) := by
  obtain ⟨expired, rolledUp, q, hopened, hq⟩ := openDay_of_writesLeft hstore hp.bounds block today
  -- The judgement is made on the opened peg, and is the one that a check makes on this peg.
  have halike : p.JudgesAlike q := by
    have h := judgesAlike_openDay p block today
    rwa [hopened] at h
  have hsettle := fst_settle_of_writesLeft hq block
  rw [halike.reEvaluated_eq] at hsettle
  refine ⟨(expired, rolledUp), ?_⟩
  rw [processBlock_of_date hdate, hopened, Outcome.andThen_ok]
  generalize q.settle block = settled at hsettle ⊢
  obtain ⟨result, r⟩ := settled
  subst hsettle
  cases (p.reEvaluated block).2.plan block with
  | error e => rfl
  | ok payouts => rfl

theorem validateBlock_eq_ok_iff {payouts : List Payout} :
    p.validateBlock block payouts = .ok () ↔ (p.reEvaluated block).2.plan block = .ok payouts := by
  unfold validateBlock
  rw [mapError_eq_ok_iff, Stabilizer.validate_eq_ok_iff]

theorem validateBlock_eq_overflow_iff {payouts : List Payout} {c : String} :
    p.validateBlock block payouts = .error (.issuance (.overflow c)) ↔
      (p.reEvaluated block).2.plan block = .error (.overflow c) := by
  unfold validateBlock
  simp only [mapError_eq_error_iff, PegError.issuance.injEq, exists_eq_right,
    Stabilizer.validate_eq_overflow_iff]

/-- Over a store that never fails, a block on a date is accepted with exactly those payouts that
processing it makes, overflows exactly where processing it does, and would be checked alike after
the invites expired and the day turned. -/
theorem validateBlock_iff_processBlock (hp : Reachable p)
    (hstore : p.oracle.store.writesLeft = none) (hdate : Date.ofTime? block.timestamp = some today) :
    (∀ payouts, p.validateBlock block payouts = .ok () ↔
      ∃ report, (p.processBlock block).1 = .ok report ∧ report.payouts = payouts) ∧
    (∀ payouts c, p.validateBlock block payouts = .error (.issuance (.overflow c)) ↔
      (p.processBlock block).1 = .error (.issuance (.overflow c))) ∧
    ∀ payouts, ((p.withOracle fun o => o.expireInvites block.timestamp).2.turnDay today
      block.height).2.validateBlock block payouts = p.validateBlock block payouts := by
  obtain ⟨opened, hprocess⟩ := fst_processBlock_of_writesLeft hp.sound hstore hdate
  refine ⟨fun payouts => ?_, fun payouts c => ?_, fun payouts => ?_⟩
  · rw [validateBlock_eq_ok_iff, hprocess]
    simp only [map_eq_ok_iff, mapError_eq_ok_iff]
    constructor
    · intro hplan
      exact ⟨_, ⟨payouts, hplan, rfl⟩, rfl⟩
    · rintro ⟨report, ⟨planned, hplan, rfl⟩, rfl⟩
      exact hplan
  · rw [validateBlock_eq_overflow_iff, hprocess, map_eq_error_iff, mapError_eq_error_iff]
    simp
  · have hexpired := judgesAlike_expireInvites p block.timestamp
    have hopened := hexpired.trans (judgesAlike_turnDay _ today block.height)
    unfold validateBlock
    rw [hopened.reEvaluated_eq]

theorem validateBlock_laterBlock :
    ∃ report, (waitingPeg.processBlock laterBlock).1 = .ok report ∧
      (report.expired, report.rolledUp.map Date.text, report.evaluated,
        report.payouts.map Payout.recipients) = (2, some "2025-06-15", 1, [["bo", "ada"]]) ∧
      waitingPeg.validateBlock laterBlock report.payouts = .ok () ∧
      ∃ today, Date.ofTime? laterBlock.timestamp = some today ∧
        ((waitingPeg.withOracle fun o => o.expireInvites laterBlock.timestamp).2.turnDay today
          laterBlock.height).2.validateBlock laterBlock report.payouts = .ok () := by
  have hreachable : Reachable waitingPeg := (reachable_measuredPeg ..).run _
  obtain ⟨hstore, hprocessed⟩ : waitingPeg.oracle.store.writesLeft = none ∧
      (waitingPeg.processBlock laterBlock).1.toOption.map (fun r =>
        (r.expired, r.rolledUp.map Date.text, r.evaluated, r.payouts.map Payout.recipients)) =
          some (2, some "2025-06-15", 1, [["bo", "ada"]]) := by decide +kernel
  obtain ⟨report, hsome, hreported⟩ := Option.map_eq_some_iff.1 hprocessed
  have hok := toOption_eq_some_iff.1 hsome
  obtain ⟨today, hdate⟩ : ∃ today, Date.ofTime? laterBlock.timestamp = some today :=
    Option.isSome_iff_exists.1 (by decide +kernel)
  obtain ⟨haccepts, -, hopened⟩ := validateBlock_iff_processBlock hreachable hstore hdate
  have hvalid := (haccepts report.payouts).2 ⟨report, hok, rfl⟩
  exact ⟨report, hok, hreported, hvalid, today, hdate, (hopened report.payouts).trans hvalid⟩

end Peg

end WaterPeg
