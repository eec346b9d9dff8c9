import WaterPeg.Proofs.Peg.Validation
import WaterPeg.Proofs.Stabilizer.Unchanged

/-!
What a failed operation of the peg leaves of the stabilizer. Currencies are judged and payouts are
recorded in memory before the step that may fail, so a failure keeps the stabilizer as it was only
where there was nothing to do.
-/
namespace WaterPeg.Peg

variable {p : Peg} {block : Block}

/-! ## Errors of single steps -/

theorem withOracle_of_error {α : Type} {f : Oracle → Oracle.Outcome α} {e : PegError}
    (h : (p.withOracle f).1 = .error e) : ∃ why, e = .oracle why := by
  obtain ⟨why, -, rfl⟩ := mapError_eq_error_iff.1 h
  exact ⟨why, rfl⟩

theorem store_of_error {batch : Batch} {e : PegError} (h : (p.store batch).1 = .error e) :
    (∃ why, e = .store why) ∧ (p.store batch).2 = p := by
  unfold store at h ⊢
  split at h
  · next why _ =>
    obtain rfl := Except.error.inj h
    exact ⟨⟨why, rfl⟩, rfl⟩
  · exact nomatch h

/-- A failure of two steps is one of the first, or of the second after the first succeeded. -/
theorem Outcome.andThen_of_error {α β : Type} {step : Outcome α} {next : α → Peg → Outcome β}
    {e : PegError} (h : (step.andThen next).1 = .error e) :
    (step.1 = .error e ∧ (step.andThen next).2 = step.2) ∨
      ∃ a q, step = (.ok a, q) ∧ (next a q).1 = .error e ∧ (step.andThen next).2 = (next a q).2 := by
  rcases step with ⟨e' | a, q⟩
  · obtain rfl := Except.error.inj h
    exact Or.inl ⟨rfl, rfl⟩
  · exact Or.inr ⟨a, q, rfl, h, rfl⟩

theorem openDay_of_error {today : Date} {e : PegError} (h : (p.openDay block today).1 = .error e) :
    ∃ why, e = .oracle why := by
  rcases Outcome.andThen_of_error h with ⟨hexpire, -⟩ | ⟨expired, q, -, h, -⟩
  · exact withOracle_of_error hexpire
  rcases Outcome.andThen_of_error h with ⟨hturn, -⟩ | ⟨rolledUp, r, -, h, -⟩
  · unfold turnDay at hturn
    split at hturn
    · exact nomatch hturn
    · split at hturn
      · rcases Outcome.andThen_of_error hturn with ⟨hroll, -⟩ | ⟨_, _, -, hturn, -⟩
        · exact withOracle_of_error hroll
        · exact nomatch hturn
      · exact nomatch hturn
  · exact nomatch h

/-- Currencies stay judged when their payouts cannot be planned, and payouts stay recorded when the
store does not take them. -/
theorem settle_of_error {e : PegError} (h : (p.settle block).1 = .error e) :
    (∃ why, e = .issuance why ∧ (p.settle block).2.stabilizer = (p.reEvaluated block).2) ∨
      ∃ why payouts, e = .store why ∧ (p.reEvaluated block).2.plan block = .ok payouts ∧
        (p.settle block).2.stabilizer = payouts.foldl Stabilizer.record (p.reEvaluated block).2 := by
  unfold settle at h ⊢
  dsimp only at h ⊢
  cases hplan : (p.reEvaluated block).2.plan block with
  | error why =>
    rw [Stabilizer.create_eq_error_iff.2 hplan] at h ⊢
    obtain rfl := Except.error.inj h
    exact Or.inl ⟨why, rfl, rfl⟩
  | ok payouts =>
    rw [Stabilizer.create_eq_ok_iff.2 ⟨hplan, rfl⟩] at h ⊢
    dsimp only at h ⊢
    rcases Outcome.andThen_of_error h with ⟨hstore, hkept⟩ | ⟨_, _, -, h, -⟩
    · obtain ⟨⟨why, rfl⟩, hq⟩ := store_of_error hstore
      refine Or.inr ⟨why, payouts, rfl, rfl, ?_⟩
      rw [hkept, hq]
    · exact nomatch h

theorem eraseRecords_of_error {height : UInt64} {e : PegError}
    (h : (p.eraseRecords height).1 = .error e) :
    (∃ why, e = .store why) ∧ (p.eraseRecords height).2 = p := by
  unfold eraseRecords at h ⊢
  split at h
  · next why _ =>
    obtain rfl := Except.error.inj h
    exact ⟨⟨why, rfl⟩, rfl⟩
  · dsimp only at h ⊢
    split at h
    · exact nomatch h
    · next hold =>
      rw [if_neg hold]
      exact store_of_error h

/-! ## Failed blocks -/

/-- A block of which nothing is seen in memory: no currency is judged anew, and what it pays out is
recorded already. -/
structure Unseen (p : Peg) (block : Block) : Prop where
  quiet : p.stabilizer.Quiet block.height block.timestamp p.oracle.feed
  recorded : ∀ payouts, (p.reEvaluated block).2.plan block = .ok payouts →
    ∀ x ∈ payouts, x.id ∈ p.stabilizer.history

/-- A block that fails for this reason leaves the stabilizer as it was. -/
def SparedBy (p : Peg) (block : Block) : PegError → Prop
  | .issuance _ => p.stabilizer.Quiet block.height block.timestamp p.oracle.feed
  | .store _ => p.Unseen block
  | .noDate _ | .oracle _ | .config _ => True

theorem reEvaluated_eq_self_iff (hp : p.Sound) :
    (p.reEvaluated block).2 = p.stabilizer ↔
      p.stabilizer.Quiet block.height block.timestamp p.oracle.feed := by
  rw [← Stabilizer.standings_reEvaluate_eq_self_iff hp.stabilizer.keyed]
  constructor
  · intro h
    exact congrArg Stabilizer.standings h
  · intro h
    unfold reEvaluated
    rw [Stabilizer.reEvaluate_eq, h]

theorem foldl_record_reEvaluated_eq_self_iff (hp : p.Sound) {payouts : List Payout}
    (hplan : (p.reEvaluated block).2.plan block = .ok payouts) :
    payouts.foldl Stabilizer.record (p.reEvaluated block).2 = p.stabilizer ↔ p.Unseen block := by
  -- Recording leaves the standings to the judgement, so each of the two must change nothing.
  have hstandings : (payouts.foldl Stabilizer.record (p.reEvaluated block).2).standings =
      (p.reEvaluated block).2.standings := by
    rw [Stabilizer.foldl_record_eq]
  constructor
  · intro h
    have hjudged : (p.reEvaluated block).2 = p.stabilizer := by
      rw [h] at hstandings
      unfold reEvaluated at hstandings ⊢
      rw [Stabilizer.reEvaluate_eq, ← hstandings]
    rw [hjudged] at h
    refine ⟨(reEvaluated_eq_self_iff hp).1 hjudged, ?_⟩
    intro payouts' hplan'
    obtain rfl := Except.ok.inj (hplan.symm.trans hplan')
    exact Stabilizer.foldl_record_eq_self_iff.1 h
  · rintro ⟨hquiet, hrecorded⟩
    rw [(reEvaluated_eq_self_iff hp).2 hquiet]
    exact Stabilizer.foldl_record_eq_self_iff.2 (hrecorded payouts hplan)

theorem processBlock_of_error (hp : p.Sound) {e : PegError}
    (h : (p.processBlock block).1 = .error e) :
    (p.processBlock block).2.stabilizer = p.stabilizer ↔ p.SparedBy block e := by
  cases hdate : Date.ofTime? block.timestamp with
  | none =>
    rw [processBlock_of_noDate hdate] at h ⊢
    obtain rfl := Except.error.inj h
    exact iff_of_true rfl trivial
  | some today =>
    have halike := judgesAlike_openDay p block today
    rw [processBlock_of_date hdate] at h ⊢
    rcases Outcome.andThen_of_error h with ⟨hopen, hkept⟩ | ⟨_, q, hopened, h, hkept⟩
    · obtain ⟨why, rfl⟩ := openDay_of_error hopen
      rw [hkept]
      exact iff_of_true halike.stabilizer_eq trivial
    rw [hopened] at halike
    rcases Outcome.andThen_of_error h with ⟨hsettle, hsettled⟩ | ⟨_, _, -, h, -⟩
    · rw [hkept, hsettled]
      rcases settle_of_error hsettle with ⟨why, rfl, hs⟩ | ⟨why, payouts, rfl, hplan, hs⟩
      · rw [hs, halike.reEvaluated_eq]
        exact reEvaluated_eq_self_iff hp
      · rw [halike.reEvaluated_eq] at hplan
        rw [hs, halike.reEvaluated_eq]
        exact foldl_record_reEvaluated_eq_self_iff hp hplan
    · exact nomatch h

/-! ## Failed pruning -/

def SparedByPruning (p : Peg) (height : UInt64) : PegError → Prop
  | .store _ => ∀ (id : Digest) (r : PayoutRecord),
    p.stabilizer.history[id]? = some r → height ≤ r.blockHeight
  | .noDate _ | .oracle _ | .config _ | .issuance _ => True

theorem prune_of_error {cutoff height : UInt64} {e : PegError}
    (h : (p.prune cutoff height).1 = .error e) :
    (p.prune cutoff height).2.stabilizer = p.stabilizer ↔ p.SparedByPruning height e := by
  unfold prune at h ⊢
  rcases Outcome.andThen_of_error h with ⟨hdrop, hkept⟩ | ⟨_, q, hdropped, h, hkept⟩
  · obtain ⟨why, rfl⟩ := withOracle_of_error hdrop
    rw [hkept]
    exact iff_of_true rfl trivial
  have hstabilizer : p.stabilizer = q.stabilizer := congrArg (·.2.stabilizer) hdropped
  generalize hpruned : q.stabilizer.prune height = pruned at h hkept
  obtain ⟨records, s⟩ := pruned
  have hs : s = (p.stabilizer.prune height).2 := by rw [hstabilizer, hpruned]
  rcases Outcome.andThen_of_error h with ⟨herase, herased⟩ | ⟨_, _, -, h, -⟩
  · obtain ⟨⟨why, rfl⟩, hq⟩ := eraseRecords_of_error herase
    rw [hkept, herased, hq, hs]
    exact Stabilizer.prune_eq_self_iff
  · exact nomatch h

/-- A failed block, and failed pruning, leave the stabilizer as it was exactly in the cases that
spare it. -/
theorem stabilizer_of_error (hp : Reachable p) :
    (∀ block e, (p.processBlock block).1 = .error e →
      ((p.processBlock block).2.stabilizer = p.stabilizer ↔ p.SparedBy block e)) ∧
    ∀ cutoff height e, (p.prune cutoff height).1 = .error e →
      ((p.prune cutoff height).2.stabilizer = p.stabilizer ↔ p.SparedByPruning height e) :=
  ⟨fun _ _ => processBlock_of_error hp.sound, fun _ _ _ => prune_of_error⟩

/-- A fresh peg, to which dollars are said to be off their peg. -/
def dollarPeg : Peg :=
  (fresh Stabilizer.euroUsers {}).run (Stabilizer.dollarsOff.map .stabilizer)

theorem reachable_dollarPeg : Reachable dollarPeg := by
  have hconfig : Config.checked {} = .ok {} := rfl
  exact (reachable_fresh Stabilizer.euroUsers hconfig).run _

def fullDollarPeg : Peg := dollarPeg.after (.store ⟨∅, some 0, false⟩)

theorem stabilizer_of_full_store :
    (fullDollarPeg.processBlock Stabilizer.dollarBlock).1 = .error (.store .diskFull) ∧
      (fullDollarPeg.processBlock Stabilizer.dollarBlock).2.stabilizer ≠
        fullDollarPeg.stabilizer := by
  have hwhy : (match (fullDollarPeg.processBlock Stabilizer.dollarBlock).1 with
      | .error e => some e
      | .ok _ => none) = some (.store .diskFull) := by decide +kernel
  have herror : (fullDollarPeg.processBlock Stabilizer.dollarBlock).1 =
      .error (.store .diskFull) := by
    split at hwhy
    · next e he => rw [he, Option.some.inj hwhy]
    · exact nomatch hwhy
  have hreachable : Reachable fullDollarPeg := reachable_dollarPeg.after _
  refine ⟨herror, fun hsame => ?_⟩
  have hunseen : fullDollarPeg.Unseen Stabilizer.dollarBlock :=
    ((stabilizer_of_error hreachable).1 _ _ herror).1 hsame
  have hplanned : ((fullDollarPeg.reEvaluated Stabilizer.dollarBlock).2.plan
      Stabilizer.dollarBlock).toOption.map List.length = some 1 := by decide +kernel
  obtain ⟨payouts, hsome, hlength⟩ := Option.map_eq_some_iff.1 hplanned
  obtain ⟨x, rfl⟩ := List.length_eq_one_iff.1 hlength
  have hrecorded := hunseen.recorded _ (toOption_eq_some_iff.1 hsome) x List.mem_cons_self
  exact Std.ExtTreeMap.not_mem_empty hrecorded

end WaterPeg.Peg
