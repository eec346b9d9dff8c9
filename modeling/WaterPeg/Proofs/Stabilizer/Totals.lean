import WaterPeg.Proofs.Stabilizer.Plan
import WaterPeg.Proofs.Stabilizer.Unchanged

/-!
The totals over a run. A payout is counted where it is recorded while no record of it is kept. So
each payout is counted once, at its first recording, exactly as long as none is recorded again after
its record was pruned.
-/
namespace WaterPeg

/-- What is clamped on the way is clamped in the end. -/
theorem UInt128.ofNatClamp_add (n m : Nat) :
    ofNatClamp ((ofNatClamp n).toNat + m) = ofNatClamp (n + m) := by
  refine toNat_inj.1 ?_
  rw [toNat_ofNatClamp, toNat_ofNatClamp, toNat_ofNatClamp]
  omega

namespace Totals

def of (payouts : List Payout) : Totals where
  coins := UInt128.ofNatClamp (payouts.map fun p => p.coins.toNat).sum
  payouts := UInt64.ofNat payouts.length
  recipients := UInt64.ofNat (payouts.map fun p => p.outputs.length).sum

theorem of_concat (payouts : List Payout) (p : Payout) :
    of (payouts ++ [p]) = (of payouts).add p := by
  unfold of add
  simp only [List.map_append, List.map_cons, List.map_nil, List.sum_append, List.sum_cons, List.sum_nil,
    Nat.add_zero, List.length_append, List.length_cons, List.length_nil, Nat.zero_add,
    UInt128.ofNatClamp_add, UInt64.ofNat_add]
  rfl

/-- As long as 64 bits hold their number, fewer payouts have other totals. -/
theorem length_eq_of_of_eq {payouts payouts' : List Payout} (hlength : payouts.length < UInt64.size)
    (hlength' : payouts'.length < UInt64.size) (h : of payouts = of payouts') :
    payouts.length = payouts'.length := by
  have hcounts := congrArg (fun t => t.payouts.toNat) h
  simpa only [of, UInt64.toNat_ofNat_of_lt' hlength, UInt64.toNat_ofNat_of_lt' hlength'] using hcounts

end Totals

namespace Payout

/-- A payout comes to others, unless one of its id is among them. -/
def keep (kept : List Payout) (p : Payout) : List Payout :=
  if p.id ∈ kept.map Payout.id then kept else kept ++ [p]

def firsts (payouts : List Payout) : List Payout := payouts.foldl keep []

theorem firsts_concat (payouts : List Payout) (p : Payout) :
    firsts (payouts ++ [p]) = keep (firsts payouts) p := List.foldl_append ..

theorem mem_ids_keep {kept : List Payout} {p : Payout} {k : Digest} :
    k ∈ (keep kept p).map Payout.id ↔ k ∈ kept.map Payout.id ∨ k = p.id := by
  unfold keep
  split
  · next hknown =>
    refine ⟨Or.inl, ?_⟩
    rintro (hk | rfl)
    · exact hk
    · exact hknown
  · rw [List.map_append, List.mem_append, List.map_singleton, List.mem_singleton]

theorem mem_ids_firsts {payouts : List Payout} {k : Digest} :
    k ∈ (firsts payouts).map Payout.id ↔ k ∈ payouts.map Payout.id := by
  have hfold (kept : List Payout) : k ∈ (payouts.foldl keep kept).map Payout.id ↔
      k ∈ kept.map Payout.id ∨ k ∈ payouts.map Payout.id := by
    induction payouts generalizing kept with
    | nil => simp
    | cons p payouts ih => rw [List.foldl_cons, ih, mem_ids_keep, List.map_cons, List.mem_cons, or_assoc]
  exact (hfold []).trans (by simp)

end Payout

namespace Stabilizer

/-! ## Recordings -/

/-- The recordings that an action is made of. Other actions stand for themselves. -/
def spell (s : Stabilizer) : Action → List Action
  | .create block =>
    match s.plan block with
    | .ok payouts => payouts.map .record
    | .error _ => []
  | a => [a]

def spelled (s : Stabilizer) : List Action → List Action
  | [] => []
  | a :: actions => s.spell a ++ (s.perform a).spelled actions

def recorded (actions : List Action) : List Payout :=
  actions.filterMap fun
    | .record p => some p
    | _ => none

/-- What is recorded again in a run was still in the history. -/
def Recalls (s : Stabilizer) (actions : List Action) : Prop :=
  ∀ before p after, actions = before ++ .record p :: after →
    p.id ∈ (recorded before).map Payout.id → p.id ∈ (s.run before).history

theorem run_append (s : Stabilizer) (actions actions' : List Action) :
    s.run (actions ++ actions') = (s.run actions).run actions' := List.foldl_append ..

theorem run_spell (s : Stabilizer) (a : Action) : s.run (s.spell a) = s.perform a := by
  cases a with
  | create block =>
    unfold spell perform
    dsimp only
    cases hplan : s.plan block with
    | error e => rw [create_eq_error_iff.2 hplan]; rfl
    | ok payouts =>
      rw [create_eq_ok_iff.2 ⟨hplan, rfl⟩]
      exact List.foldl_map
  | _ => rfl

/-- To record one by one what is created leads to the same. -/
theorem run_spelled (s : Stabilizer) (actions : List Action) :
    s.run (s.spelled actions) = s.run actions := by
  induction actions generalizing s with
  | nil => rfl
  | cons a actions ih =>
    rw [spelled, run_append, run_spell, ih]
    rfl

theorem recorded_concat_record (actions : List Action) (p : Payout) :
    recorded (actions ++ [.record p]) = recorded actions ++ [p] := List.filterMap_append ..

structure Idle (s : Stabilizer) (a : Action) : Prop where
  recorded_concat : ∀ actions, recorded (actions ++ [a]) = recorded actions
  ne_record : ∀ p, a ≠ .record p
  totals_eq : (s.perform a).totals = s.totals
  mem_history : ∀ k ∈ (s.perform a).history, k ∈ s.history

theorem idle_of_ne (s : Stabilizer) {a : Action} (hcreate : ∀ block, a ≠ .create block)
    (hrecord : ∀ p, a ≠ .record p) : s.Idle a := by
  have hrecorded (actions : List Action) : recorded (actions ++ [a]) = recorded actions := by
    unfold recorded
    rw [List.filterMap_append]
    cases a with
    | record p => exact absurd rfl (hrecord p)
    | _ => exact List.append_nil _
  cases a with
  | create block => exact absurd rfl (hcreate block)
  | record p => exact absurd rfl (hrecord p)
  | update | markInactive | refreshInactive => exact ⟨hrecorded, hrecord, rfl, fun _ hk => hk⟩
  | reEvaluate height now feed =>
    have hjudged : s.perform (.reEvaluate height now feed) =
        { s with standings := (s.reEvaluate height now feed).2.standings } :=
      reEvaluate_eq feed height now s
    refine ⟨hrecorded, hrecord, ?_, fun k hk => ?_⟩
    · rw [hjudged]
    · rwa [hjudged] at hk
  | prune height =>
    refine ⟨hrecorded, hrecord, rfl, fun k hk => ?_⟩
    rw [Std.ExtTreeMap.mem_iff_isSome_getElem?, perform, getElem?_history_prune] at hk
    rw [Std.ExtTreeMap.mem_iff_isSome_getElem?]
    exact Option.isSome_of_isSome_filter _ _ hk

theorem ne_create_of_mem_spelled {s : Stabilizer} {actions : List Action} {a : Action}
    (ha : a ∈ s.spelled actions) (block : Block) : a ≠ .create block := by
  induction actions generalizing s with
  | nil => exact nomatch ha
  | cons b actions ih =>
    rw [spelled, List.mem_append] at ha
    rcases ha with ha | ha
    · rintro rfl
      unfold spell at ha
      split at ha
      · split at ha
        · obtain ⟨p, -, hp⟩ := List.mem_map.1 ha
          exact nomatch hp
        · exact nomatch ha
      · next hb => exact hb block (List.mem_singleton.1 ha).symm
    · exact ih ha

theorem recalls_concat {s : Stabilizer} {actions : List Action} {a : Action} :
    s.Recalls (actions ++ [a]) ↔ s.Recalls actions ∧ ∀ p, a = .record p →
      p.id ∈ (recorded actions).map Payout.id → p.id ∈ (s.run actions).history := by
  constructor
  · intro h
    refine ⟨fun before p after hactions => ?_, fun p hp => ?_⟩
    · refine h before p (after ++ [a]) ?_
      rw [hactions, List.append_assoc, List.cons_append]
    · exact h actions p [] (by rw [hp])
  · rintro ⟨hactions, hlast⟩ before p after heq
    rcases List.eq_nil_or_concat after with rfl | ⟨after, b, rfl⟩
    · obtain ⟨rfl, hp⟩ := List.append_inj' heq rfl
      exact hlast p (List.cons.inj hp).1
    · refine hactions before p after ?_
      rw [List.concat_eq_append, ← List.cons_append, ← List.append_assoc] at heq
      exact (List.append_inj' heq rfl).1

/-! ## What is counted -/

/-- What is counted in a run, among it the first recordings, and only those if all is recalled. -/
structure Counts (s : Stabilizer) (past : List Action) (counted : List Payout) : Prop where
  totals_eq : (s.run past).totals = .of counted
  known : ∀ k ∈ (s.run past).history, k ∈ (recorded past).map Payout.id
  firsts_sublist : (Payout.firsts (recorded past)).Sublist counted
  counted_sublist : counted.Sublist (recorded past)
  once_iff : counted = Payout.firsts (recorded past) ↔ s.Recalls past

theorem counts_nil (params : StabilityParams) (directory : Directory) :
    (new params directory).Counts [] [] := by
  refine ⟨rfl, fun k hk => ?_, .slnil, .slnil, iff_of_true rfl ?_⟩
  · exact absurd hk Std.ExtTreeMap.not_mem_empty
  · intro before p after hnil
    exact nomatch (List.append_eq_nil_iff.1 hnil.symm).2

namespace Counts

variable {s : Stabilizer} {past : List Action} {counted : List Payout} (h : s.Counts past counted)

include h

theorem idle {a : Action} (ha : (s.run past).Idle a) : s.Counts (past ++ [a]) counted := by
  have hrun : s.run (past ++ [a]) = (s.run past).perform a := run_append ..
  have hrecalls : s.Recalls (past ++ [a]) ↔ s.Recalls past :=
    recalls_concat.trans (and_iff_left fun p hp => absurd hp (ha.ne_record p))
  refine ⟨?_, ?_, ?_, ?_, ?_⟩
  · rw [hrun, ha.totals_eq, h.totals_eq]
  · rw [hrun, ha.recorded_concat]
    exact fun k hk => h.known k (ha.mem_history k hk)
  · rw [ha.recorded_concat]
    exact h.firsts_sublist
  · rw [ha.recorded_concat]
    exact h.counted_sublist
  · rw [ha.recorded_concat, hrecalls]
    exact h.once_iff

theorem record (p : Payout) : ∃ counted', s.Counts (past ++ [.record p]) counted' := by
  have hrun : s.run (past ++ [.record p]) = (s.run past).record p := run_append ..
  have hknown : ∀ k ∈ (s.run (past ++ [.record p])).history,
      k ∈ (recorded (past ++ [.record p])).map Payout.id := by
    intro k hk
    rw [hrun, mem_history_record] at hk
    rw [recorded_concat_record, List.map_append, List.mem_append]
    rcases hk with hk | rfl
    · exact Or.inl (h.known k hk)
    · exact Or.inr List.mem_cons_self
  have hfirsts : Payout.firsts (recorded (past ++ [.record p])) =
      Payout.keep (Payout.firsts (recorded past)) p := by
    rw [recorded_concat_record, Payout.firsts_concat]
  have hrecalls : s.Recalls (past ++ [.record p]) ↔ s.Recalls past ∧
      (p.id ∈ (recorded past).map Payout.id → p.id ∈ (s.run past).history) := by
    rw [recalls_concat]
    refine and_congr_right fun _ => ⟨fun hp => hp p rfl, ?_⟩
    rintro hp q ⟨⟩
    exact hp
  by_cases hkept : p.id ∈ (s.run past).history
  · -- The record is still there: nothing is counted.
    have hfirsts' : Payout.keep (Payout.firsts (recorded past)) p = Payout.firsts (recorded past) :=
      if_pos (Payout.mem_ids_firsts.2 (h.known p.id hkept))
    refine ⟨counted, ⟨?_, hknown, ?_, ?_, ?_⟩⟩
    · rw [hrun, record_of_mem hkept, h.totals_eq]
    · rw [hfirsts, hfirsts']
      exact h.firsts_sublist
    · rw [recorded_concat_record]
      exact h.counted_sublist.trans (List.sublist_append_left _ _)
    · rw [hfirsts, hfirsts', hrecalls, h.once_iff]
      exact (and_iff_left fun _ => hkept).symm
  · have htotals : (s.run (past ++ [.record p])).totals = .of (counted ++ [p]) := by
      rw [hrun, Totals.of_concat, ← h.totals_eq]
      unfold Stabilizer.record
      rw [if_neg (mt Std.ExtTreeMap.mem_iff_contains.2 hkept)]
    have hcounted : (counted ++ [p]).Sublist (recorded (past ++ [.record p])) := by
      rw [recorded_concat_record]
      exact h.counted_sublist.append_right [p]
    by_cases hagain : p.id ∈ (recorded past).map Payout.id
    · -- The record was pruned: the payout is counted again.
      have hfirsts' : Payout.keep (Payout.firsts (recorded past)) p =
          Payout.firsts (recorded past) := if_pos (Payout.mem_ids_firsts.2 hagain)
      refine ⟨counted ++ [p], ⟨htotals, hknown, ?_, hcounted, ?_⟩⟩
      · rw [hfirsts, hfirsts']
        exact h.firsts_sublist.trans (List.sublist_append_left _ _)
      · rw [hfirsts, hfirsts', hrecalls]
        refine iff_of_false (fun heq => ?_) fun hp => hkept (hp.2 hagain)
        have hlength := h.firsts_sublist.length_le
        rw [← heq, List.length_append] at hlength
        exact absurd hlength (by simp)
    · -- The payout is new.
      have hfirsts' : Payout.keep (Payout.firsts (recorded past)) p =
          Payout.firsts (recorded past) ++ [p] := if_neg (mt Payout.mem_ids_firsts.1 hagain)
      refine ⟨counted ++ [p], ⟨htotals, hknown, ?_, hcounted, ?_⟩⟩
      · rw [hfirsts, hfirsts']
        exact h.firsts_sublist.append_right [p]
      · rw [hfirsts, hfirsts', hrecalls, List.append_left_inj, h.once_iff]
        exact (and_iff_left fun hp => absurd hp hagain).symm

theorem run {actions : List Action} (hactions : ∀ a ∈ actions, ∀ block, a ≠ .create block) :
    ∃ counted', s.Counts (past ++ actions) counted' := by
  induction actions generalizing past counted with
  | nil => exact ⟨counted, (List.append_nil past).symm ▸ h⟩
  | cons a actions ih =>
    have hstep : ∃ counted', s.Counts (past ++ [a]) counted' := by
      by_cases hrecord : ∃ p, a = .record p
      · obtain ⟨p, rfl⟩ := hrecord
        exact h.record p
      · exact ⟨counted, h.idle ((s.run past).idle_of_ne (hactions a List.mem_cons_self)
          fun p hp => hrecord ⟨p, hp⟩)⟩
    obtain ⟨counted', hcounted⟩ := hstep
    have hrest := ih hcounted fun b hb => hactions b (List.mem_cons_of_mem a hb)
    rwa [List.append_assoc, List.singleton_append] at hrest

end Counts

/-- The totals are those of some of the recordings of a run, among them the first ones of each id. In a
run of fewer than 2 ^ 64 recordings they are those of the first ones alone exactly as long as what is
recorded again was still in the history: where pruning has dropped the record, the payout is counted
again. -/
theorem totals_of_run (params : StabilityParams) (directory : Directory) (actions : List Action) :
    (∃ counted, ((new params directory).run actions).totals = .of counted ∧
      (Payout.firsts (recorded ((new params directory).spelled actions))).Sublist counted ∧
      counted.Sublist (recorded ((new params directory).spelled actions))) ∧
    ((recorded ((new params directory).spelled actions)).length < UInt64.size →
      (((new params directory).run actions).totals =
          .of (Payout.firsts (recorded ((new params directory).spelled actions))) ↔
        (new params directory).Recalls ((new params directory).spelled actions))) := by
  obtain ⟨counted, h⟩ : ∃ counted, (new params directory).Counts
      ([] ++ (new params directory).spelled actions) counted :=
    (counts_nil params directory).run fun a ha => ne_create_of_mem_spelled ha
  rw [List.nil_append] at h
  have htotals := h.totals_eq
  rw [run_spelled] at htotals
  refine ⟨⟨counted, htotals, h.firsts_sublist, h.counted_sublist⟩, fun hlength => ?_⟩
  rw [htotals, ← h.once_iff]
  refine ⟨fun hsame => ?_, congrArg Totals.of⟩
  have hcounted := h.counted_sublist.length_le
  have hfirsts := h.firsts_sublist.length_le
  have hlengths := Totals.length_eq_of_of_eq (by omega) (by omega) hsame
  exact (h.firsts_sublist.eq_of_length hlengths.symm).symm

/-- Dollars are paid out for a block, and for the same block again. -/
def repaid (between : List Action) : List Action :=
  dollarsOff ++ .create dollarBlock :: between ++ [.create dollarBlock]

/-- Paid out again at once the block is counted once; after pruning it is counted twice. -/
theorem totals_of_repaid :
    (new {} euroUsers).Recalls ((new {} euroUsers).spelled (repaid [])) ∧
      ((new {} euroUsers).run (repaid [])).totals.payouts = 1 ∧
      ¬ (new {} euroUsers).Recalls ((new {} euroUsers).spelled (repaid [.prune 145])) ∧
      ((new {} euroUsers).run (repaid [.prune 145])).totals.payouts = 2 ∧
      (Payout.firsts (recorded ((new {} euroUsers).spelled (repaid [.prune 145])))).length = 1 := by
  obtain ⟨hlength, htotals, hpayouts, hlength', htotals', hpayouts', hfirsts⟩ :
      (recorded ((new {} euroUsers).spelled (repaid []))).length < UInt64.size ∧
      ((new {} euroUsers).run (repaid [])).totals =
        .of (Payout.firsts (recorded ((new {} euroUsers).spelled (repaid [])))) ∧
      ((new {} euroUsers).run (repaid [])).totals.payouts = 1 ∧
      (recorded ((new {} euroUsers).spelled (repaid [.prune 145]))).length < UInt64.size ∧
      ((new {} euroUsers).run (repaid [.prune 145])).totals ≠
        .of (Payout.firsts (recorded ((new {} euroUsers).spelled (repaid [.prune 145])))) ∧
      ((new {} euroUsers).run (repaid [.prune 145])).totals.payouts = 2 ∧
      (Payout.firsts (recorded ((new {} euroUsers).spelled (repaid [.prune 145])))).length = 1 := by
    decide +kernel
  exact ⟨((totals_of_run {} euroUsers _).2 hlength).1 htotals, hpayouts,
    mt ((totals_of_run {} euroUsers _).2 hlength').2 htotals', hpayouts', hfirsts⟩

end Stabilizer

end WaterPeg
