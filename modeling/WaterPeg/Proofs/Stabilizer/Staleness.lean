import WaterPeg.Proofs.Stabilizer.Plan

/-!
What becomes of a tracked currency that the feed has no averages of. A look at the whole table
retires every currency that has gone stale; judging by the feed retires those that are pegged.
-/
namespace WaterPeg

namespace Standing

def swept (i : Standing) (height maxGap : UInt64) : Standing :=
  if i.isOverdue height maxGap then i.retire else i

/-- What shows whether a currency may issue: its status, and since when it is unstable. -/
def verdict (i : Standing) : Stability × Option UInt64 := (i.status, i.unstableSince)

variable {i : Standing} {height maxGap : UInt64}

theorem status_swept_of_isStale (h : i.isStale height maxGap) :
    (i.swept height maxGap).status = .inactive := by
  unfold swept isOverdue
  by_cases hstatus : i.status = .inactive
  · simp [hstatus]
  · simp [hstatus, h, retire]

theorem verdict_swept_eq_iff :
    (i.swept height maxGap).verdict = i.verdict ↔ ¬ i.isOverdue height maxGap := by
  unfold swept
  split
  · next hdue =>
    refine iff_of_false (fun h => ?_) (not_not_intro hdue)
    have hstatus : Stability.inactive = i.status := congrArg Prod.fst h
    simp [isOverdue, ← hstatus] at hdue
  · next hdue => exact iff_of_true rfl hdue

end Standing

namespace Stabilizer

section

variable {s : Stabilizer} {feed : PriceFeed} {height now : UInt64} {c : String} {i : Standing}

theorem refreshInactive_of_tracked (hi : s.standings[c]? = some i) (height : UInt64) :
    (s.refreshInactive height).standings[c]? =
      some (i.swept height s.params.inactiveBlocks) := by
  rw [standings_refreshInactive, hi]
  rfl

theorem reEvaluate_of_silent (hs : s.Keyed) (hi : s.standings[c]? = some i)
    (hsilent : s.averages? feed now c = none) (height : UInt64) :
    (s.reEvaluate height now feed).2.standings[c]? =
      some (if Currency.isPegged c then i.swept height s.params.inactiveBlocks else i) := by
  have htracked : (s.standings[c]?).isSome ∨ c ∈ feed.currencies := .inl (by rw [hi]; rfl)
  rw [standings_reEvaluate feed height now hs, if_pos htracked, hsilent, hi]
  cases hpegged : Currency.isPegged c with
  | false => simp [Standing.judged?, hpegged]
  | true => simp [Standing.judged?, hpegged, Standing.swept]

end

/-- Judging by a feed without averages of a tracked currency does to it what a look for stale
currencies does, exactly unless the currency is overdue and not pegged. A pegged one that is stale
is then inactive; one that is not pegged is as it was. -/
theorem standing_of_silent {params : StabilityParams} {directory : Directory} {s : Stabilizer}
    (hs : Reachable params directory s) {feed : PriceFeed} {now : UInt64} {c : String} {i : Standing}
    (hi : s.standings[c]? = some i) (hsilent : s.averages? feed now c = none) (height : UInt64) :
    ((s.reEvaluate height now feed).2.standings[c]?.map Standing.verdict =
        (s.refreshInactive height).standings[c]?.map Standing.verdict ↔
      Currency.isPegged c ∨ ¬ i.isOverdue height params.inactiveBlocks) ∧
    (Currency.isPegged c →
      (s.reEvaluate height now feed).2.standings[c]? = (s.refreshInactive height).standings[c]? ∧
        (i.isStale height params.inactiveBlocks → ∃ j,
          (s.reEvaluate height now feed).2.standings[c]? = some j ∧ j.status = .inactive)) ∧
    (¬ Currency.isPegged c → (s.reEvaluate height now feed).2.standings[c]? = some i) := by
  rw [reEvaluate_of_silent hs.keyed hi hsilent, refreshInactive_of_tracked hi, hs.params_eq]
  by_cases hpegged : Currency.isPegged c
  · rw [if_pos hpegged]
    refine ⟨iff_of_true rfl (.inl hpegged), fun _ => ⟨rfl, fun hstale => ?_⟩, absurd hpegged⟩
    exact ⟨_, rfl, Standing.status_swept_of_isStale hstale⟩
  · rw [if_neg hpegged, Option.map_some, Option.map_some, Option.some.injEq, eq_comm,
      Standing.verdict_swept_eq_iff]
    exact ⟨(or_iff_right hpegged).symm, fun h => absurd h hpegged, fun _ => rfl⟩

/-- The fiat dollar is found off a peg that it does not have. -/
def fiatOff : List Action := [.update "USD" 1000000 1500000 1000000 100]

def silentFeed : PriceFeed := ⟨[], fun _ _ _ => none, fun _ _ _ _ => none⟩

/-- It is unstable for as long as it is judged, however stale. -/
theorem standing_of_silent_fiatOff :
    ∃ i, ((new {} euroUsers).run fiatOff).standings["USD"]? = some i ∧ i.status = .unstable ∧
      i.isStale 4421 4320 ∧
      (((new {} euroUsers).run fiatOff).reEvaluate 4421 1750000000 silentFeed).2.standings["USD"]? =
        some i ∧
      (((new {} euroUsers).run fiatOff).reEvaluate 4421 1750000000 silentFeed).2.standings["USD"]?.map
          Standing.verdict ≠
        (((new {} euroUsers).run fiatOff).refreshInactive 4421).standings["USD"]?.map
          Standing.verdict := by
  have htracked : ((new {} euroUsers).run fiatOff).standings["USD"]?.map (fun i =>
      (i.status, i.isStale 4421 4320)) = some (.unstable, true) := by decide +kernel
  obtain ⟨i, hi, hstale⟩ := Option.map_eq_some_iff.1 htracked
  obtain ⟨hstatus, hstale⟩ := Prod.mk.inj hstale
  have hsilent : ((new {} euroUsers).run fiatOff).averages? silentFeed 1750000000 "USD" = none := by
    decide +kernel
  have hfiat : ¬ Currency.isPegged "USD" := by decide
  have hdue : i.isOverdue 4421 4320 := by simp [Standing.isOverdue, hstatus, hstale]
  obtain ⟨hiff, -, hkept⟩ := standing_of_silent (Reachable.new.run fiatOff) hi hsilent 4421
  exact ⟨i, hi, hstatus, hstale, hkept hfiat, fun h => (hiff.1 h).elim hfiat (absurd hdue)⟩

end Stabilizer

end WaterPeg
