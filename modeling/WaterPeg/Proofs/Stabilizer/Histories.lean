import WaterPeg.Proofs.Stabilizer.Unchanged

/-!
Stabilizers that differ in their histories alone. They judge and pay out alike, and count the same
totals as long as they know the same payouts.
-/
namespace WaterPeg.Stabilizer

def SameButHistory (s s' : Stabilizer) : Prop := ∃ history, s' = { s with history }

namespace SameButHistory

variable {s s' : Stabilizer} (h : s.SameButHistory s')

include h

theorem standings_eq : s'.standings = s.standings := by
  obtain ⟨history, rfl⟩ := h
  rfl

theorem params_eq : s'.params = s.params := by
  obtain ⟨history, rfl⟩ := h
  rfl

theorem directory_eq : s'.directory = s.directory := by
  obtain ⟨history, rfl⟩ := h
  rfl

theorem totals_eq : s'.totals = s.totals := by
  obtain ⟨history, rfl⟩ := h
  rfl

theorem eq_of_history (hhistory : s'.history = s.history) : s' = s := by
  obtain ⟨history, rfl⟩ := h
  obtain rfl : history = s.history := hhistory
  rfl

theorem plan_eq (block : Block) : s'.plan block = s.plan block := by
  obtain ⟨history, rfl⟩ := h
  rfl

theorem evaluated_eq (height now : UInt64) (feed : PriceFeed) :
    (s'.reEvaluate height now feed).1 = (s.reEvaluate height now feed).1 := by
  obtain ⟨history, rfl⟩ := h
  rfl

theorem reEvaluate (hs : s.Keyed) (height now : UInt64) (feed : PriceFeed) :
    (s.reEvaluate height now feed).2.SameButHistory (s'.reEvaluate height now feed).2 := by
  obtain ⟨history, rfl⟩ := h
  have hstandings : ({ s with history }.reEvaluate height now feed).2.standings =
      (s.reEvaluate height now feed).2.standings := by
    refine Std.ExtTreeMap.ext_getElem? fun c => ?_
    have hs' : { s with history }.Keyed := hs
    rw [standings_reEvaluate feed height now hs, standings_reEvaluate feed height now hs']
    rfl
  refine ⟨history, ?_⟩
  rw [reEvaluate_eq, reEvaluate_eq feed height now s, hstandings]

theorem prune (height : UInt64) : (s.prune height).2.SameButHistory (s'.prune height).2 := by
  obtain ⟨history, rfl⟩ := h
  exact ⟨_, rfl⟩

theorem record (p : Payout) (hid : p.id ∈ s'.history ↔ p.id ∈ s.history) :
    (s.record p).SameButHistory (s'.record p) := by
  obtain ⟨history, rfl⟩ := h
  by_cases hp : p.id ∈ s.history
  · rw [record_of_mem hp, record_of_mem (hid.2 hp)]
    exact ⟨history, rfl⟩
  · have hp' : p.id ∉ history := mt hid.1 hp
    unfold Stabilizer.record
    rw [if_neg (mt Std.ExtTreeMap.mem_iff_contains.2 hp),
      if_neg (mt Std.ExtTreeMap.mem_iff_contains.2 hp')]
    exact ⟨_, rfl⟩

/-- As long as the same payouts are known, the same are counted. -/
theorem foldl_record (hids : ∀ id, id ∈ s'.history ↔ id ∈ s.history) (payouts : List Payout) :
    (payouts.foldl Stabilizer.record s).SameButHistory (payouts.foldl Stabilizer.record s') := by
  induction payouts generalizing s s' with
  | nil => exact h
  | cons p payouts ih =>
    refine ih (h.record p (hids p.id)) fun id => ?_
    rw [mem_history_record, mem_history_record, hids]

/-- Both create the same payouts, or none for the same reason. -/
theorem perform_create (hids : ∀ id, id ∈ s'.history ↔ id ∈ s.history) (block : Block) :
    (s.perform (.create block)).SameButHistory (s'.perform (.create block)) := by
  have hplan := h.plan_eq block
  unfold perform
  dsimp only
  cases hs : s.plan block with
  | error e =>
    rw [create_eq_error_iff.2 hs, create_eq_error_iff.2 (hplan.trans hs)]
    exact h
  | ok payouts =>
    rw [create_eq_ok_iff.2 ⟨hs, rfl⟩, create_eq_ok_iff.2 ⟨hplan.trans hs, rfl⟩]
    exact h.foldl_record hids payouts

end SameButHistory

/-! ## Views of a history -/

/-- Two histories that look the same where `f` is all that is seen of a record. -/
def Alike {β : Type} (f : PayoutRecord → β) (history history' : Table Digest PayoutRecord) : Prop :=
  ∀ id : Digest, history'[id]?.map f = history[id]?.map f

namespace Alike

variable {β : Type} {f : PayoutRecord → β} {history history' : Table Digest PayoutRecord}

theorem mem_iff (h : Alike f history history') (id : Digest) : id ∈ history' ↔ id ∈ history := by
  rw [Std.ExtTreeMap.mem_iff_isSome_getElem?, Std.ExtTreeMap.mem_iff_isSome_getElem?,
    ← Option.isSome_map (f := f), h id, Option.isSome_map]

theorem eq_of_id (h : Alike id history history') : history' = history :=
  Std.ExtTreeMap.ext_getElem? fun k => by simpa using h k

/-- What shows the heights shows what pruning drops. -/
theorem prune {s s' : Stabilizer} (h : Alike f s.history s'.history)
    (hf : ∀ r r', f r = f r' → r.blockHeight = r'.blockHeight) (height : UInt64) :
    Alike f (s.prune height).2.history (s'.prune height).2.history := by
  intro k
  rw [getElem?_history_prune, getElem?_history_prune]
  have hk := h k
  cases hr : s.history[k]? with
  | none =>
    rw [hr, Option.map_none, Option.map_eq_none_iff] at hk
    rw [hk]
  | some r =>
    rw [hr, Option.map_some, Option.map_eq_some_iff] at hk
    obtain ⟨r', hr', hshown⟩ := hk
    rw [hr', Option.filter_some, Option.filter_some, hf r' r hshown]
    split
    · exact congrArg some hshown
    · rfl

end Alike

end WaterPeg.Stabilizer
