import WaterPeg.Proofs.Stabilizer.Standings

/-!
Runs of the stabilizer: its operations as data, what a sequence of them leads to, and what no run
changes.
-/
namespace WaterPeg.Stabilizer

inductive Action
  | update (currency : String) (expected observed exchangeRate height : UInt64)
  | markInactive (currency : String) (height : UInt64)
  | refreshInactive (height : UInt64)
  | reEvaluate (height now : UInt64) (feed : PriceFeed)
  | create (block : Block)
  | record (payout : Payout)
  | prune (height : UInt64)

/-- The stabilizer after an operation. One that fails changes nothing. -/
def perform (s : Stabilizer) : Action → Stabilizer
  | .update currency expected observed exchangeRate height =>
    s.update currency expected observed exchangeRate height
  | .markInactive currency height => s.markInactive currency height
  | .refreshInactive height => s.refreshInactive height
  | .reEvaluate height now feed => (s.reEvaluate height now feed).2
  | .create block =>
    match s.create block with
    | .ok (_, s) => s
    | .error _ => s
  | .record payout => s.record payout
  | .prune height => (s.prune height).2

def run (s : Stabilizer) (actions : List Action) : Stabilizer := actions.foldl perform s

/-- The stabilizers that some run leads to. One may be restored from any lists on the way. -/
inductive Reachable (params : StabilityParams) (directory : Directory) : Stabilizer → Prop
  | new : Reachable params directory (new params directory)
  | restore {s : Stabilizer} (standings : List Standing) (history : List PayoutRecord)
      (totals : Totals) (hs : Reachable params directory s) :
      Reachable params directory (s.restore standings history totals)
  | perform {s : Stabilizer} (a : Action) (hs : Reachable params directory s) :
      Reachable params directory (s.perform a)

/-! ## Records of payouts -/

theorem create_eq_ok_iff {s s' : Stabilizer} {block : Block} {payouts : List Payout} :
    s.create block = .ok (payouts, s') ↔
      s.plan block = .ok payouts ∧ s' = payouts.foldl record s := by
  unfold create
  cases s.plan block with
  | error e => simp [bind, Except.bind]
  | ok planned =>
    simp only [bind, Except.bind, Except.ok.injEq, Prod.mk.injEq]
    constructor
    · rintro ⟨rfl, rfl⟩
      exact ⟨rfl, rfl⟩
    · rintro ⟨rfl, rfl⟩
      exact ⟨rfl, rfl⟩

theorem create_eq_error_iff {s : Stabilizer} {block : Block} {e : IssuanceError} :
    s.create block = .error e ↔ s.plan block = .error e := by
  unfold create
  cases s.plan block <;> simp [bind, Except.bind]

/-- Keeping a record touches the history and the totals alone. -/
theorem record_eq (s : Stabilizer) (p : Payout) :
    s.record p = { s with history := (s.record p).history, totals := (s.record p).totals } := by
  unfold record
  split <;> rfl

theorem foldl_record_eq (s : Stabilizer) (payouts : List Payout) :
    payouts.foldl record s =
      { s with
        history := (payouts.foldl record s).history
        totals := (payouts.foldl record s).totals } := by
  induction payouts generalizing s with
  | nil => rfl
  | cons p payouts ih => rw [List.foldl_cons, ih, record_eq]

/-- Creating payouts amounts to recording some: those of the plan, or none if there is no plan. -/
theorem perform_create (s : Stabilizer) (block : Block) :
    ∃ payouts : List Payout, s.perform (.create block) = payouts.foldl record s := by
  cases h : s.create block with
  | error e => exact ⟨[], by simp only [perform, h, List.foldl_nil]⟩
  | ok result =>
    refine ⟨result.1, ?_⟩
    simp only [perform, h]
    exact (create_eq_ok_iff.1 h).2

/-! ## What operations keep -/

theorem standings_perform_create (s : Stabilizer) (block : Block) :
    (s.perform (.create block)).standings = s.standings := by
  obtain ⟨payouts, h⟩ := perform_create s block
  rw [h, foldl_record_eq]

theorem standings_perform_record (s : Stabilizer) (p : Payout) :
    (s.perform (.record p)).standings = s.standings := by
  change (s.record p).standings = s.standings
  rw [record_eq]

theorem perform_params_directory (s : Stabilizer) (a : Action) :
    (s.perform a).params = s.params ∧ (s.perform a).directory = s.directory := by
  cases a with
  | update => exact ⟨rfl, rfl⟩
  | markInactive => exact ⟨rfl, rfl⟩
  | refreshInactive => exact ⟨rfl, rfl⟩
  | reEvaluate height now feed =>
    change (s.reEvaluate height now feed).2.params = _ ∧
      (s.reEvaluate height now feed).2.directory = _
    rw [reEvaluate_eq]
    exact ⟨rfl, rfl⟩
  | create block =>
    obtain ⟨payouts, h⟩ := perform_create s block
    rw [h, foldl_record_eq]
    exact ⟨rfl, rfl⟩
  | record p =>
    change (s.record p).params = _ ∧ (s.record p).directory = _
    rw [record_eq]
    exact ⟨rfl, rfl⟩
  | prune => exact ⟨rfl, rfl⟩

theorem Keyed.congr {s t : Stabilizer} (hs : s.Keyed) (h : t.standings = s.standings) :
    t.Keyed := by
  intro c i hi
  exact hs c i (h ▸ hi)

theorem Keyed.perform {s : Stabilizer} (hs : s.Keyed) (a : Action) : (s.perform a).Keyed := by
  cases a with
  | update => exact hs.put _
  | markInactive => exact hs.put _
  | refreshInactive height =>
    intro c i hi
    change (s.refreshInactive height).standings[c]? = some i at hi
    rw [standings_refreshInactive, Option.map_eq_some_iff] at hi
    obtain ⟨j, hj, rfl⟩ := hi
    split
    · exact hs c j hj
    · exact hs c j hj
  | reEvaluate height now feed => exact hs.reEvaluate feed height now
  | create block => exact hs.congr (standings_perform_create s block)
  | record p => exact hs.congr (standings_perform_record s p)
  | prune => exact hs

namespace Reachable

variable {params : StabilityParams} {directory : Directory} {s : Stabilizer}

theorem run (hs : Reachable params directory s) (actions : List Action) :
    Reachable params directory (s.run actions) := by
  unfold Stabilizer.run
  induction actions generalizing s with
  | nil => exact hs
  | cons a actions ih => exact ih (hs.perform a)

theorem keyed (hs : Reachable params directory s) : s.Keyed := by
  induction hs with
  | new => intro c i hi; simp [Stabilizer.new] at hi
  | restore standings history totals _ _ =>
    intro c i hi
    exact Table.key_of_getElem?_foldl_insert Standing.currency standings hi
  | perform a _ ih => exact ih.perform a

theorem params_eq (hs : Reachable params directory s) : s.params = params := by
  induction hs with
  | new => rfl
  | restore _ _ _ _ ih => exact ih
  | perform a _ ih => exact (perform_params_directory _ a).1.trans ih

theorem directory_eq (hs : Reachable params directory s) : s.directory = directory := by
  induction hs with
  | new => rfl
  | restore _ _ _ _ ih => exact ih
  | perform a _ ih => exact (perform_params_directory _ a).2.trans ih

end Reachable

end WaterPeg.Stabilizer
