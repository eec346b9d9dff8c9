import WaterPeg.Proofs.Peg.Replays

/-!
Blocks that are attempted over a store that fails. An attempt stops at the batch that the store does
not take, with the memory ahead of the store by what was paid out. Once the store recovers, the block
is processed as if there had been no attempts, but for the counts of the checks.
-/
namespace WaterPeg

namespace Oracle

def recovered (o : Oracle) : Oracle := o.step (.storeTurns none false)

/-- An operation failed and changed nothing, or would do over a recovered store what it did. -/
def Recovers {α : Type} (o : Oracle) (out out' : Outcome α) : Prop :=
  (∃ why, out = (.error why, o)) ∨ ∃ a o', out = (.ok a, o') ∧ out' = (.ok a, o'.recovered)

variable (o : Oracle)

theorem recovers_commit {α : Type} (edits : List Edit) (result : α) :
    o.Recovers (o.commit edits result) (o.recovered.commit edits result) := by
  unfold commit
  split
  · exact Or.inr ⟨result, o, rfl, rfl⟩
  · cases hbatch : o.store.applyBatch (edits.map Edit.entry) with
    | error why => exact Or.inl ⟨_, rfl⟩
    | ok store =>
      have hrecovered : o.recovered.store.applyBatch (edits.map Edit.entry) =
          .ok ⟨store.entries, none, false⟩ := by
        rw [Store.applyBatch_of_writesLeft rfl, (Store.applyBatch_of_ok hbatch).1]
        rfl
      rw [hrecovered]
      exact Or.inr ⟨result, _, rfl, rfl⟩

theorem recovers_expireInvites (now : UInt64) :
    o.Recovers (o.expireInvites now) (o.recovered.expireInvites now) := o.recovers_commit _ _

theorem recovers_rollUpDay {date : Date} {bounds : UInt64 × UInt64}
    (hbounds : date.bounds? = some bounds) (blockHeight : UInt64) :
    o.Recovers (o.rollUpDay date blockHeight) (o.recovered.rollUpDay date blockHeight) := by
  unfold rollUpDay
  rw [hbounds]
  exact o.recovers_commit _ _

end Oracle

def BlockReport.settlement (r : BlockReport) : Nat × List Payout := (r.evaluated, r.payouts)

namespace Peg

/-- The store turns: it takes that many writes more, or all, and can be read or not. -/
def turned (p : Peg) (writesLeft : Option Nat) (readsFail : Bool) : Peg :=
  { p with oracle := p.oracle.step (.storeTurns writesLeft readsFail) }

def recovered (p : Peg) : Peg := { p with oracle := p.oracle.recovered }

/-- What an attempt to process a block leaves, over a store that turned before. -/
def attempt (p : Peg) (block : Block) (turn : Option Nat × Bool) : Peg :=
  ((p.turned turn.1 turn.2).processBlock block).2

def attempts (p : Peg) (block : Block) (turns : List (Option Nat × Bool)) : Peg :=
  turns.foldl (·.attempt block ·) p

structure EndsAlike (x y : Outcome BlockReport) : Prop where
  settlement_eq : y.1.map BlockReport.settlement = x.1.map BlockReport.settlement
  uncounted_eq : y.2.uncounted = x.2.uncounted

theorem EndsAlike.refl (x : Outcome BlockReport) : EndsAlike x x := ⟨rfl, rfl⟩

theorem EndsAlike.trans {x y z : Outcome BlockReport} (hxy : EndsAlike x y) (hyz : EndsAlike y z) :
    EndsAlike x z :=
  ⟨hyz.settlement_eq.trans hxy.settlement_eq, hyz.uncounted_eq.trans hxy.uncounted_eq⟩

variable {p q : Peg} {block : Block} {today : Date}

theorem Reachable.turned (hp : Reachable p) (writesLeft : Option Nat) (readsFail : Bool) :
    Reachable (p.turned writesLeft readsFail) :=
  hp.after (.store { p.oracle.store with writesLeft, readsFail })

theorem Reachable.attempt (hp : Reachable p) (block : Block) (turn : Option Nat × Bool) :
    Reachable (p.attempt block turn) :=
  (hp.turned turn.1 turn.2).after (.processBlock block)

/-! ## Opening the day -/

def Recovers {α : Type} (p : Peg) (out out' : Outcome α) : Prop :=
  (∃ why, out = (.error why, p)) ∨ ∃ a q, out = (.ok a, q) ∧ out' = (.ok a, q.recovered)

theorem recovers_withOracle {α : Type} {f : Oracle → Oracle.Outcome α}
    (h : p.oracle.Recovers (f p.oracle) (f p.oracle.recovered)) :
    p.Recovers (p.withOracle f) (p.recovered.withOracle f) := by
  rcases h with ⟨why, h⟩ | ⟨a, o, h, hrecovered⟩
  · refine Or.inl ⟨.oracle why, ?_⟩
    unfold withOracle
    rw [h]
    rfl
  · exact Or.inr ⟨a, _, withOracle_of_ok h, withOracle_of_ok (p := p.recovered) hrecovered⟩

theorem recovers_expireInvites (p : Peg) (now : UInt64) :
    p.Recovers (p.withOracle fun o => o.expireInvites now)
      (p.recovered.withOracle fun o => o.expireInvites now) :=
  recovers_withOracle (f := fun o => o.expireInvites now) (p.oracle.recovers_expireInvites now)

theorem recovers_turnDay (hbounds : ∀ d ∈ p.lastDate, ∃ b, d.bounds? = some b) (today : Date)
    (height : UInt64) :
    p.Recovers (p.turnDay today height) (p.recovered.turnDay today height) := by
  cases hlast : p.lastDate with
  | none =>
    unfold turnDay
    rw [hlast, show p.recovered.lastDate = none from hlast]
    exact Or.inr ⟨none, _, rfl, rfl⟩
  | some last =>
    unfold turnDay
    rw [hlast, show p.recovered.lastDate = some last from hlast]
    dsimp only
    split
    · obtain ⟨bounds, hdate⟩ := hbounds last hlast
      rcases recovers_withOracle (f := fun o => o.rollUpDay last height)
        (p.oracle.recovers_rollUpDay hdate height) with ⟨why, h⟩ | ⟨rollups, q, h, hrecovered⟩
      · rw [h]
        exact Or.inl ⟨why, rfl⟩
      · rw [h, hrecovered]
        exact Or.inr ⟨some last, _, rfl, rfl⟩
    · exact Or.inr ⟨none, p, rfl, rfl⟩

/-! ## Settling -/

/-- However settling a block ends, the recovered store holds what it may be settled again from. -/
theorem recovered_settle (p : Peg) (block : Block) :
    ∃ entries, p.recovered.Left block entries ∧ (p.settle block).2.recovered =
      p.recovered.keeping (p.recovered.settle block).2.stabilizer entries := by
  have hstabilizer : (p.recovered.settle block).2.stabilizer = (p.settle block).2.stabilizer := by
    rw [stabilizer_settle, stabilizer_settle]
    rfl
  unfold Left
  rw [hstabilizer]
  cases hplan : (p.reEvaluated block).2.plan block with
  | error e =>
    rw [settle_of_create_error rfl (Stabilizer.create_eq_error_iff.2 hplan)]
    exact ⟨p.oracle.store.entries, Or.inl rfl, rfl⟩
  | ok payouts =>
    unfold settle
    dsimp only
    rw [Stabilizer.create_eq_ok_iff.2 ⟨hplan, rfl⟩]
    dsimp only
    unfold store
    split
    · exact ⟨p.oracle.store.entries, Or.inl rfl, rfl⟩
    · next store hbatch =>
      refine ⟨store.entries, Or.inr ⟨payouts, hplan, ?_⟩, rfl⟩
      rw [(Store.applyBatch_of_ok hbatch).1]
      rfl

theorem endsAlike_report {x y : Outcome (Nat × List Payout)} (hresult : y.1 = x.1)
    (huncounted : y.2.uncounted = x.2.uncounted) (opened opened' : Nat × Option Date) :
    EndsAlike (x.andThen fun settled p => (.ok (report opened settled), p))
      (y.andThen fun settled p => (.ok (report opened' settled), p)) := by
  obtain ⟨result, p⟩ := x
  obtain ⟨result', q⟩ := y
  obtain rfl : result' = result := hresult
  cases result' with
  | error e => exact ⟨rfl, huncounted⟩
  | ok settled => exact ⟨rfl, huncounted⟩

/-! ## Attempts -/

/-- Where an attempt let the invites expire, which they do not twice, only the count of them is
missing in the report. -/
theorem endsAlike_of_lapsed (hdate : Date.ofTime? block.timestamp = some today) {count : Nat}
    (hexpired : (p.withOracle fun o => o.expireInvites block.timestamp) = (.ok count, q))
    (hlapsed : q.oracle.lapsed block.timestamp = []) :
    EndsAlike (p.processBlock block) (q.processBlock block) := by
  rw [processBlock_of_date hdate, processBlock_of_date hdate]
  unfold openDay
  rw [hexpired, withOracle_of_ok (Oracle.expireInvites_of_lapsed hlapsed), Outcome.andThen_ok,
    Outcome.andThen_ok]
  change EndsAlike _ (((q.turnDay today block.height).andThen _).andThen _)
  generalize q.turnDay today block.height = turned
  obtain ⟨e | rolledUp, r⟩ := turned
  · exact ⟨rfl, rfl⟩
  · exact endsAlike_report rfl rfl _ _

/-- Where an attempt opened the day, the block is settled again. -/
theorem endsAlike_of_opened (hp : Reachable p.recovered)
    (hdate : Date.ofTime? block.timestamp = some today) {opened : Nat × Option Date}
    (hopened : p.recovered.openDay block today = (.ok opened, q.recovered)) :
    EndsAlike (p.recovered.processBlock block) ((q.settle block).2.recovered.processBlock block) := by
  have hday : q.recovered.Opened block today := opened_of_openDay hp.tables_keyed hopened
  have hsound : q.recovered.Sound := by
    have hsound := hp.sound.openDay hdate
    rwa [hopened] at hsound
  obtain ⟨entries, hleft, hq⟩ := q.recovered_settle block
  obtain ⟨r, hagain, -, huncounted⟩ := settle_again hsound rfl hleft
  rw [hq, processBlock_of_date hdate, processBlock_of_date hdate, hopened,
    (hday.keeping _ _).openDay, Outcome.andThen_ok, Outcome.andThen_ok, hagain]
  exact endsAlike_report (x := q.recovered.settle block)
    (y := ((q.recovered.settle block).1, r)) rfl huncounted _ _

/-- A block that was attempted ends over the recovered store as if it had not been. -/
theorem endsAlike_retry (hp : Reachable p) (block : Block) :
    EndsAlike (p.recovered.processBlock block)
      ((p.processBlock block).2.recovered.processBlock block) := by
  cases hdate : Date.ofTime? block.timestamp with
  | none =>
    rw [processBlock_of_noDate (p := p) hdate]
    exact .refl _
  | some today =>
    rw [processBlock_of_date (p := p) hdate]
    unfold openDay
    rcases p.recovers_expireInvites block.timestamp with
      ⟨why, hexpired⟩ | ⟨count, p₁, hexpired, hexpired'⟩
    · -- No invite has expired, and nothing else has changed.
      rw [hexpired]
      exact .refl _
    rw [hexpired, Outcome.andThen_ok]
    have hbounds : ∀ d ∈ p₁.lastDate, ∃ b, d.bounds? = some b := by
      obtain ⟨-, rfl⟩ := Prod.mk.inj hexpired
      exact hp.sound.bounds
    rcases recovers_turnDay hbounds today block.height with
      ⟨why, hturned⟩ | ⟨rolledUp, p₂, hturned, hturned'⟩
    · have hlapsed : p₁.oracle.lapsed block.timestamp = [] :=
        lapsed_of_withOracle hp.tables_keyed hexpired
      have halike : EndsAlike (p.recovered.processBlock block) (p₁.recovered.processBlock block) :=
        endsAlike_of_lapsed hdate hexpired' hlapsed
      rw [hturned]
      exact halike
    · have hopened : p.recovered.openDay block today = (.ok (count, rolledUp), p₂.recovered) := by
        unfold openDay
        rw [hexpired', Outcome.andThen_ok, hturned', Outcome.andThen_ok]
      have hsettled : ((p₂.settle block).andThen fun settled p =>
          (.ok (report (count, rolledUp) settled), p)).2 = (p₂.settle block).2 :=
        Outcome.andThen_ok_snd (P := (· = (p₂.settle block).2)) _ rfl
      rw [hturned, Outcome.andThen_ok, Outcome.andThen_ok, hsettled]
      exact endsAlike_of_opened (hp.turned none false) hdate hopened

/-- However often a block was attempted, and wherever the attempts stopped, it ends over the recovered
store as if it had not been: with the same payouts, or the same error, and with the same peg and the
same store but for the counts of the checks. -/
theorem processBlock_of_attempts (hp : Reachable p) (block : Block)
    (turns : List (Option Nat × Bool)) :
    ((p.attempts block turns).recovered.processBlock block).1.map BlockReport.settlement =
        (p.recovered.processBlock block).1.map BlockReport.settlement ∧
      ((p.attempts block turns).recovered.processBlock block).2.uncounted =
        (p.recovered.processBlock block).2.uncounted := by
  have halike : EndsAlike (p.recovered.processBlock block)
      ((p.attempts block turns).recovered.processBlock block) := by
    unfold attempts
    induction turns generalizing p with
    | nil => exact .refl _
    | cons turn turns ih =>
      have hfirst : EndsAlike (p.recovered.processBlock block)
          ((p.attempt block turn).recovered.processBlock block) :=
        endsAlike_retry (hp.turned turn.1 turn.2) block
      exact hfirst.trans (ih (hp.attempt block turn))
  exact ⟨halike.settlement_eq, halike.uncounted_eq⟩

/-- A store that first takes no batch, then one, then one again, and then none. -/
def failingTurns : List (Option Nat × Bool) :=
  [(some 0, false), (some 1, false), (some 1, false), (some 0, false)]

/-- The attempts stop before the invites expire, before the day turns, and twice before the payouts
are stored. -/
theorem processBlock_of_failingTurns :
    ([0, 1, 2, 3].map fun n => (((waitingPeg.attempts laterBlock (failingTurns.take n)).turned
      (failingTurns[n]?.bind (·.1)) false).processBlock laterBlock).1.toOption.isSome) =
        [false, false, false, false] ∧
      ∃ report, ((waitingPeg.attempts laterBlock failingTurns).recovered.processBlock laterBlock).1 =
          .ok report ∧
        report.payouts.map Payout.recipients = [["bo", "ada"]] ∧
        (waitingPeg.recovered.processBlock laterBlock).1.map BlockReport.settlement =
          .ok report.settlement ∧
        ((waitingPeg.attempts laterBlock failingTurns).recovered.processBlock
          laterBlock).2.uncounted = (waitingPeg.recovered.processBlock laterBlock).2.uncounted := by
  have hreachable : Reachable waitingPeg := (reachable_measuredPeg ..).run _
  obtain ⟨hstops, hpayouts⟩ :
      ([0, 1, 2, 3].map fun n => (((waitingPeg.attempts laterBlock (failingTurns.take n)).turned
        (failingTurns[n]?.bind (·.1)) false).processBlock laterBlock).1.toOption.isSome) =
          [false, false, false, false] ∧
      ((waitingPeg.attempts laterBlock failingTurns).recovered.processBlock
        laterBlock).1.toOption.map (·.payouts.map Payout.recipients) = some [["bo", "ada"]] := by
    decide +kernel
  obtain ⟨report, hsome, hrecipients⟩ := Option.map_eq_some_iff.1 hpayouts
  have hok := toOption_eq_some_iff.1 hsome
  obtain ⟨hsettlement, huncounted⟩ :=
    processBlock_of_attempts hreachable laterBlock failingTurns
  rw [hok] at hsettlement
  exact ⟨hstops, report, hok, hrecipients, hsettlement.symm, huncounted⟩

end Peg

end WaterPeg
