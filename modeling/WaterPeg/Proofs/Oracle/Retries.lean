import WaterPeg.Proofs.Oracle.Provenance

/-!
Requests that fail. A failed request leaves nothing behind, in memory or in the store, so that it
can be sent again; and whether it succeeds then depends on the store in one point only, on its room
for a batch.
-/
namespace WaterPeg

/-- What is left of an error over a store with room: a refusal is, a failure of the store is not. -/
def OracleError.lasting? : OracleError → Option OracleError
  | .store _ => none
  | why => some why

namespace Oracle

inductive Answer
  | invites (issued : List Invite)
  | id (id : Digest)
  | count (n : Nat)
  | rollups (rollups : List Rollup)
  | reliability (rate : UInt64)
  | done

def answer (o : Oracle) : Request → Except OracleError Answer
  | .issue count kind currency now blockHeight =>
    (o.issue count kind currency now blockHeight).1.map .invites
  | .issueForTarget target kind currency now blockHeight =>
    (o.issueForTarget target kind currency now blockHeight).1.map .invites
  | .submitWater s now => (o.submit s now).1.map .id
  | .submitRate s now => (o.submit s now).1.map .id
  | .endorse id validator => (o.endorse id validator).1.map fun _ => .done
  | .expireInvites now => (o.expireInvites now).1.map .count
  | .prune cutoff => (o.prune cutoff).1.map .count
  | .rollUpDay date blockHeight => (o.rollUpDay date blockHeight).1.map .rollups
  | .registerUrl url kind currency submitter now blockHeight =>
    (o.registerUrl url kind currency submitter now blockHeight).1.map .id
  | .endorseUrl id validator => (o.endorseUrl id validator).1.map fun _ => .done
  | .recordUrlCheck id success now => (o.recordUrlCheck id success now).1.map .reliability

def answers (o : Oracle) : List Event → List (Except OracleError Answer)
  | [] => []
  | .request r :: events => o.answer r :: (o.after r).answers events
  | e :: events => (o.step e).answers events

def successes (o : Oracle) : List Event → List Event
  | [] => []
  | .request r :: events =>
    if (o.failure? r).isSome then (o.after r).successes events
    else .request r :: (o.after r).successes events
  | e :: events => e :: (o.step e).successes events

theorem Outcome.error?_eq_some_iff {α : Type} {out : Outcome α} {why : OracleError} :
    Outcome.error? out = some why ↔ out.1 = .error why := by
  unfold Outcome.error?
  cases out.1 <;> simp

theorem answer_eq_error_iff {o : Oracle} {r : Request} {why : OracleError} :
    o.answer r = .error why ↔ o.failure? r = some why := by
  cases r <;> exact map_eq_error_iff.trans Outcome.error?_eq_some_iff.symm

theorem failure?_of_answer {o : Oracle} {r : Request} {a : Answer} (h : o.answer r = .ok a) :
    o.failure? r = none := by
  cases hfailure : o.failure? r with
  | none => rfl
  | some why => exact nomatch h.symm.trans (answer_eq_error_iff.2 hfailure)

/-! ## What a failure leaves -/

section

variable {o : Oracle} {why : OracleError}

theorem snd_commit_of_error {α : Type} {edits : List Edit} {result : α}
    (h : (o.commit edits result).1 = .error why) : (o.commit edits result).2 = o := by
  rcases commit_cases o edits result with ⟨e, he⟩ | ⟨store, hstore⟩
  · rw [he]
  · rw [hstore] at h
    exact nomatch h

theorem Concludes.snd_of_error {α : Type} {out : Outcome α} (hout : o.Concludes out)
    (h : out.1 = .error why) : out.2 = o := by
  cases hout with
  | refused => rfl
  | committed edits result => exact snd_commit_of_error h

/-- An issue counts on only after its commit. -/
theorem snd_issue_of_error {count : Nat} {kind : MeasurementKind} {currency : Option String}
    {now blockHeight : UInt64} (h : (o.issue count kind currency now blockHeight).1 = .error why) :
    (o.issue count kind currency now blockHeight).2 = o := by
  unfold issue at h ⊢
  dsimp only at h ⊢
  split
  · rfl
  · next hdraft =>
    rw [if_neg hdraft] at h
    generalize hcommit : o.commit _ _ = out at h
    have hsnd : out.1 = .error why → out.2 = o := by
      rw [← hcommit]
      exact snd_commit_of_error
    rcases out with ⟨_ | _, o'⟩
    · exact hsnd h
    · exact nomatch h

theorem after_of_failure? {r : Request} (h : o.failure? r = some why) : o.after r = o := by
  cases r with
  | issue => exact snd_issue_of_error (Outcome.error?_eq_some_iff.1 h)
  | issueForTarget target kind currency now blockHeight =>
    change Outcome.error? (o.issueForTarget target kind currency now blockHeight) = _ at h
    rcases o.issueForTarget_cases target kind currency now blockHeight with hsame | ⟨count, heq⟩
    · exact hsame
    · rw [heq] at h
      exact (congrArg Prod.snd heq).trans (snd_issue_of_error (Outcome.error?_eq_some_iff.1 h))
  | submitWater => exact (concludes_submit ..).snd_of_error (Outcome.error?_eq_some_iff.1 h)
  | submitRate => exact (concludes_submit ..).snd_of_error (Outcome.error?_eq_some_iff.1 h)
  | endorse => exact (concludes_endorse ..).snd_of_error (Outcome.error?_eq_some_iff.1 h)
  | expireInvites => exact snd_commit_of_error (Outcome.error?_eq_some_iff.1 h)
  | prune => exact snd_commit_of_error (Outcome.error?_eq_some_iff.1 h)
  | rollUpDay => exact (clerical_rollUpDay ..).concludes.snd_of_error (Outcome.error?_eq_some_iff.1 h)
  | registerUrl => exact (clerical_registerUrl ..).concludes.snd_of_error (Outcome.error?_eq_some_iff.1 h)
  | endorseUrl => exact (clerical_endorseUrl ..).concludes.snd_of_error (Outcome.error?_eq_some_iff.1 h)
  | recordUrlCheck =>
    exact (clerical_recordUrlCheck ..).concludes.snd_of_error (Outcome.error?_eq_some_iff.1 h)

end

/-! ## The store in the way of a request -/

/-- What an operation gives over each store: a refusal for a reason that lasts, or what a commit of
some edits gives. -/
inductive Resolves (o : Oracle) {α : Type} (f : Store → Except OracleError α) : Prop
  | refused {why : OracleError} (h : ∀ store, f store = .error why) (hwhy : why.lasting? = some why)
  | committed (edits : List Edit) (result : α)
      (h : ∀ store, f store = (commit { o with store } edits result).1)

theorem fst_commit_map {α β : Type} (o : Oracle) (edits : List Edit) (result : α) (g : α → β) :
    (o.commit edits result).1.map g = (o.commit edits (g result)).1 := by
  unfold commit
  split
  · rfl
  · cases o.store.applyBatch (edits.map Edit.entry) with
    | error e => rfl
    | ok store => rfl

theorem Resolves.map {α β : Type} {o : Oracle} {f : Store → Except OracleError α}
    (h : o.Resolves f) (g : α → β) : o.Resolves fun store => (f store).map g := by
  cases h with
  | refused hrefused hwhy =>
    refine .refused (fun store => ?_) hwhy
    rw [hrefused store]
    rfl
  | committed edits result hcommit =>
    refine .committed edits (g result) fun store => ?_
    rw [hcommit store, fst_commit_map]

theorem fst_issue (o : Oracle) (count : Nat) (kind : MeasurementKind) (currency : Option String)
    (now blockHeight : UInt64) :
    (o.issue count kind currency now blockHeight).1 =
      if (o.draft count kind currency now blockHeight).isEmpty then .ok []
      else (o.commit (o.issueEdits count kind currency now blockHeight)
        (o.draft count kind currency now blockHeight)).1 := by
  unfold issue issueEdits
  dsimp only
  split
  · rfl
  · generalize o.commit _ _ = out
    rcases out with ⟨_ | _, o'⟩
    · rfl
    · rfl

theorem resolves_issue (o : Oracle) (count : Nat) (kind : MeasurementKind)
    (currency : Option String) (now blockHeight : UInt64) :
    o.Resolves fun store => (issue { o with store } count kind currency now blockHeight).1 := by
  by_cases hdraft : (o.draft count kind currency now blockHeight).isEmpty
  · exact .committed [] [] fun store => (fst_issue ..).trans (if_pos hdraft)
  · exact .committed (o.issueEdits count kind currency now blockHeight)
      (o.draft count kind currency now blockHeight) fun store => (fst_issue ..).trans (if_neg hdraft)

theorem resolves_issueForTarget (o : Oracle) (target : UInt64) (kind : MeasurementKind)
    (currency : Option String) (now blockHeight : UInt64) :
    o.Resolves fun store =>
      (issueForTarget { o with store } target kind currency now blockHeight).1 := by
  have hready (store : Store) :
      isReady { o with store } kind currency blockHeight = o.isReady kind currency blockHeight := rfl
  simp only [issueForTarget, hready]
  by_cases h : o.isReady kind currency blockHeight
  · simp only [if_pos h]
    exact resolves_issue o (o.targetCount target kind currency) kind currency now blockHeight
  · simp only [if_neg h]
    exact .committed [] [] fun _ => rfl

theorem resolves_submit {ω α : Type} [Quantity ω α] (o : Oracle) (s : Submission ω)
    (now : UInt64) : o.Resolves fun store => (submit { o with store } s now).1 := by
  have hjudge (store : Store) : judge { o with store } s now = o.judge s now := rfl
  simp only [submit, hjudge]
  cases o.judge s now with
  | error why => exact .refused (fun _ => rfl) rfl
  | ok a => exact .committed _ _ fun _ => rfl

theorem resolves_endorse (o : Oracle) (id : Digest) (validator : String) :
    o.Resolves fun store => (endorse { o with store } id validator).1 := by
  simp only [endorse]
  cases o.tables.water[id]? with
  | some r =>
    dsimp only
    cases r.endorse validator o.params.minValidators with
    | error why => exact .refused (fun _ => rfl) rfl
    | ok r' => exact .committed _ _ fun _ => rfl
  | none =>
    dsimp only
    cases o.tables.rates[id]? with
    | some r =>
      dsimp only
      cases r.endorse validator o.params.minValidators with
      | error why => exact .refused (fun _ => rfl) rfl
      | ok r' => exact .committed _ _ fun _ => rfl
    | none => exact .refused (fun _ => rfl) rfl

theorem resolves_expireInvites (o : Oracle) (now : UInt64) :
    o.Resolves fun store => (expireInvites { o with store } now).1 := by
  simp only [expireInvites]
  exact .committed _ _ fun _ => rfl

theorem resolves_prune (o : Oracle) (cutoff : UInt64) :
    o.Resolves fun store => (prune { o with store } cutoff).1 := by
  simp only [prune]
  exact .committed _ _ fun _ => rfl

theorem resolves_rollUpDay (o : Oracle) (date : Date) (blockHeight : UInt64) :
    o.Resolves fun store => (rollUpDay { o with store } date blockHeight).1 := by
  have hrollup (store : Store) : rollup { o with store } = o.rollup := rfl
  simp only [rollUpDay, hrollup]
  cases date.bounds? with
  | none => exact .refused (fun _ => rfl) rfl
  | some bounds => exact .committed _ _ fun _ => rfl

theorem resolves_registerUrl (o : Oracle) (url : String) (kind : MeasurementKind)
    (currency : Option String) (submitter : String) (now blockHeight : UInt64) :
    o.Resolves fun store =>
      (registerUrl { o with store } url kind currency submitter now blockHeight).1 := by
  simp only [registerUrl]
  cases Evidence.checkUrl url with
  | error fault => exact .refused (fun _ => rfl) rfl
  | ok =>
    by_cases h : o.tables.urls.contains (SourceUrl.idOf url kind currency)
    · simp only [if_pos h]
      exact .refused (fun _ => rfl) rfl
    · simp only [if_neg h]
      exact .committed _ _ fun _ => rfl

theorem resolves_endorseUrl (o : Oracle) (id : Digest) (validator : String) :
    o.Resolves fun store => (endorseUrl { o with store } id validator).1 := by
  simp only [endorseUrl]
  cases o.tables.urls[id]? with
  | none => exact .refused (fun _ => rfl) rfl
  | some u =>
    by_cases hown : u.submitter = validator
    · simp only [if_pos hown]
      exact .refused (fun _ => rfl) rfl
    · by_cases hknown : u.validators.contains validator
      · simp only [if_neg hown, if_pos hknown]
        exact .refused (fun _ => rfl) rfl
      · simp only [if_neg hown, if_neg hknown]
        exact .committed _ _ fun _ => rfl

theorem resolves_recordUrlCheck (o : Oracle) (id : Digest) (success : Bool) (now : UInt64) :
    o.Resolves fun store => (recordUrlCheck { o with store } id success now).1 := by
  simp only [recordUrlCheck]
  cases o.tables.urls[id]? with
  | none => exact .refused (fun _ => rfl) rfl
  | some u => exact .committed _ _ fun _ => rfl

/-- Of the store only its room for a batch shows in an answer. -/
theorem resolves_answer (o : Oracle) (r : Request) :
    o.Resolves fun store => answer { o with store } r := by
  cases r with
  | issue => exact (resolves_issue o ..).map _
  | issueForTarget => exact (resolves_issueForTarget o ..).map _
  | submitWater => exact (resolves_submit o ..).map _
  | submitRate => exact (resolves_submit o ..).map _
  | endorse => exact (resolves_endorse o ..).map _
  | expireInvites => exact (resolves_expireInvites o ..).map _
  | prune => exact (resolves_prune o ..).map _
  | rollUpDay => exact (resolves_rollUpDay o ..).map _
  | registerUrl => exact (resolves_registerUrl o ..).map _
  | endorseUrl => exact (resolves_endorseUrl o ..).map _
  | recordUrlCheck => exact (resolves_recordUrlCheck o ..).map _

theorem commit_of_room {α : Type} {o : Oracle} (h : o.store.writesLeft ≠ some 0)
    (edits : List Edit) (result : α) : (o.commit edits result).1 = .ok result := by
  unfold commit Store.applyBatch Store.mutate
  split
  · rfl
  · cases hleft : o.store.writesLeft with
    | none => rfl
    | some n =>
      cases n with
      | zero => exact absurd hleft h
      | succ n => rfl

/-- All stores with room serve alike. -/
theorem answer_eq_of_room (o : Oracle) (r : Request) {store store' : Store}
    (hroom : store.writesLeft ≠ some 0) (hroom' : store'.writesLeft ≠ some 0) :
    answer { o with store } r = answer { o with store := store' } r := by
  cases o.resolves_answer r with
  | refused hrefused => rw [hrefused store, hrefused store']
  | committed edits result hcommit =>
    rw [hcommit store, hcommit store', commit_of_room hroom, commit_of_room hroom']

/-- Over a store with room what failed is refused again, or was the fault of the store. -/
theorem failure?_of_room {o : Oracle} {r : Request} {why : OracleError}
    (h : o.failure? r = some why) {store : Store} (hroom : store.writesLeft ≠ some 0) :
    failure? { o with store } r = why.lasting? := by
  have hanswer : o.answer r = .error why := answer_eq_error_iff.2 h
  cases o.resolves_answer r with
  | refused hrefused hlasting =>
    obtain rfl := Except.error.inj ((hrefused o.store).symm.trans hanswer)
    rw [hlasting]
    exact answer_eq_error_iff.1 (hrefused store)
  | committed edits result hcommit =>
    have hfull : (o.commit edits result).1 = .error why := (hcommit o.store).symm.trans hanswer
    rcases commit_cases o edits result with ⟨e, he⟩ | ⟨store, hstore⟩
    · obtain rfl := Except.error.inj ((congrArg Prod.fst he).symm.trans hfull)
      exact failure?_of_answer ((hcommit store).trans (commit_of_room hroom edits result))
    · exact nomatch (congrArg Prod.fst hstore).symm.trans hfull

/-! ## Histories -/

theorem run_successes (o : Oracle) (events : List Event) :
    o.run (o.successes events) = o.run events := by
  induction events generalizing o with
  | nil => rfl
  | cons e events ih =>
    cases e with
    | storeTurns => exact ih _
    | request r =>
      cases hfailure : o.failure? r with
      | none =>
        simp only [successes, hfailure]
        exact ih (o.after r)
      | some why =>
        have hsame := after_of_failure? hfailure
        simp only [successes, hfailure, hsame]
        change _ = (o.after r).run events
        rw [hsame]
        exact ih o

theorem answers_successes (o : Oracle) (events : List Event) :
    o.answers (o.successes events) = (o.answers events).filter Except.isOk := by
  induction events generalizing o with
  | nil => rfl
  | cons e events ih =>
    cases e with
    | storeTurns => exact ih _
    | request r =>
      cases hfailure : o.failure? r with
      | none =>
        have hok : (o.answer r).isOk := by
          cases hanswer : o.answer r with
          | ok a => rfl
          | error why => exact nomatch hfailure.symm.trans (answer_eq_error_iff.1 hanswer)
        simp only [successes, hfailure, answers, List.filter_cons, hok, if_true]
        exact congrArg (o.answer r :: ·) (ih (o.after r))
      | some why =>
        have herror : (o.answer r).isOk = false := by
          rw [answer_eq_error_iff.2 hfailure]
          rfl
        simp only [successes, hfailure, answers, List.filter_cons, herror,
          after_of_failure? hfailure]
        exact ih o

/-- A request that fails, for whatever reason, leaves the oracle as it was: its tables, its count of
the issued invites and its store. Sent again over a store with room it gives what it would have
given in the first place over any such store, which is a failure only if it had been refused. And a
history without its failed requests reaches the same oracle, with the same answers otherwise. -/
theorem failures_undone (o : Oracle) :
    (∀ r why, o.failure? r = some why →
      o.after r = o ∧
      ∀ writesLeft readsFail, writesLeft ≠ some 0 →
        ((o.after r).step (.storeTurns writesLeft readsFail)).failure? r = why.lasting? ∧
        ∀ store : Store, store.writesLeft ≠ some 0 →
          ((o.after r).step (.storeTurns writesLeft readsFail)).answer r =
            answer { o with store } r) ∧
    ∀ events, o.run (o.successes events) = o.run events ∧
      o.answers (o.successes events) = (o.answers events).filter Except.isOk := by
  constructor
  · intro r why hfailure
    have hsame := after_of_failure? hfailure
    refine ⟨hsame, fun writesLeft readsFail hroom => ?_⟩
    rw [hsame]
    refine ⟨failure?_of_room hfailure hroom, fun store hstore => ?_⟩
    exact answer_eq_of_room o r hroom hstore
  · exact fun events => ⟨o.run_successes events, o.answers_successes events⟩

theorem failures_undone_of_adasRun :
    ((fresh adaAlone {}).run (adasRun.take 2)).failure? (.submitWater adasPrice 1750000060) =
        some (.store .diskFull) ∧
      ((((fresh adaAlone {}).run (adasRun.take 2)).after (.submitWater adasPrice 1750000060)).step
        (.storeTurns none false)).failure? (.submitWater adasPrice 1750000060) = none := by
  have hfull : ((fresh adaAlone {}).run (adasRun.take 2)).failure?
      (.submitWater adasPrice 1750000060) = some (.store .diskFull) := by
    decide +kernel
  obtain ⟨-, hretry⟩ := (failures_undone ((fresh adaAlone {}).run (adasRun.take 2))).1 _ _ hfull
  exact ⟨hfull, (hretry none false nofun).1⟩

end Oracle

end WaterPeg
