import WaterPeg.Proofs.Oracle.Runs

/-!
Where ids come from. Every id is the digest of a preimage that is hashed in some event, and every
observation is one that was accepted. All of this is up to collisions of the digest.
-/
namespace WaterPeg

/-! ## Preimages -/

theorem Bytes.ofWord_injective {a b : UInt64} (h : ofWord a = ofWord b) : a = b := by
  have hvalue : ∀ w : UInt64, ofLittleEndian (ofWord w) = w.toNat := by
    intro w
    rw [ofWord, ofLittleEndian_littleEndian, Nat.mod_eq_of_lt w.toNat_lt]
  rw [← UInt64.toNat_inj, ← hvalue a, h, hvalue b]

/-- The preimage of an invite ends with its place in the order of issue. -/
theorem Invite.sequence_of_preimage_eq {user user' : String}
    {createdAt createdAt' sequence sequence' : UInt64}
    (h : preimage user createdAt sequence = preimage user' createdAt' sequence') :
    sequence = sequence' := by
  refine Bytes.ofWord_injective (List.append_inj_right' h ?_)
  simp [Bytes.ofWord]

/-- The preimage of an observation ends with the id of its invite. -/
theorem Submission.suffix_preimage {ω α : Type} [Quantity ω α] (s : Submission ω) (measured : α) :
    s.inviteId.bytes <:+ s.preimage measured := ⟨_, rfl⟩

theorem Digest.eq_of_suffix {a b : Digest} {p : Bytes} (ha : a.bytes <:+ p) (hb : b.bytes <:+ p) :
    a = b := by
  have hlength : a.bytes.length = b.bytes.length := by rw [a.length_bytes, b.length_bytes]
  have hsuffix := List.suffix_of_suffix_length_le ha hb (Nat.le_of_eq hlength)
  cases a; cases b
  simpa using hsuffix.eq_of_length hlength

/-- The digest tells these texts apart. -/
def NoCollision (texts : List Bytes) : Prop := ∀ p ∈ texts, ∀ q ∈ texts, sha3 p = sha3 q → p = q

theorem NoCollision.subset {texts texts' : List Bytes} (h : NoCollision texts')
    (hsub : texts ⊆ texts') : NoCollision texts :=
  fun p hp q hq => h p (hsub hp) q (hsub hq)

namespace Oracle

def targetCount (o : Oracle) (target : UInt64) (kind : MeasurementKind)
    (currency : Option String) : Nat :=
  (Invite.countFor target (o.turnout ⟨currency, kind⟩).rate o.params.minTurnout
    o.params.inviteOverhead).toNat

def draftHashes (o : Oracle) (count : Nat) (kind : MeasurementKind) (currency : Option String)
    (now blockHeight : UInt64) : List Bytes :=
  (o.draft count kind currency now blockHeight).map fun i =>
    Invite.preimage i.user i.createdAt i.sequence

/-- What the id of an observation is the digest of, if the submission gets as far as an id. -/
def submissionHashes {ω α : Type} [Quantity ω α] (o : Oracle) (s : Submission ω) (now : UInt64) :
    List Bytes :=
  match o.screen s now with
  | .ok (_, measured) => [s.preimage measured]
  | .error _ => []

/-- The preimages of invites and observations that are hashed in an event. -/
def hashes (o : Oracle) : Event → List Bytes
  | .request (.issue count kind currency now blockHeight) =>
    o.draftHashes count kind currency now blockHeight
  | .request (.issueForTarget target kind currency now blockHeight) =>
    if o.isReady kind currency blockHeight then
      o.draftHashes (o.targetCount target kind currency) kind currency now blockHeight
    else []
  | .request (.submitWater s now) => o.submissionHashes s now
  | .request (.submitRate s now) => o.submissionHashes s now
  | .request (.endorse _ _) | .request (.expireInvites _) | .request (.prune _)
  | .request (.rollUpDay _ _) | .request (.registerUrl _ _ _ _ _ _) | .request (.endorseUrl _ _)
  | .request (.recordUrlCheck _ _ _) | .storeTurns _ _ => []

def submissionAccepted {ω α : Type} [Quantity ω α] (o : Oracle) (s : Submission ω) (now : UInt64) :
    List Digest :=
  match (o.submit s now).1 with
  | .ok _ => [s.inviteId]
  | .error _ => []

def acceptedIn (o : Oracle) : Event → List Digest
  | .request (.submitWater s now) => o.submissionAccepted s now
  | .request (.submitRate s now) => o.submissionAccepted s now
  | .request (.issue _ _ _ _ _) | .request (.issueForTarget _ _ _ _ _) | .request (.endorse _ _)
  | .request (.expireInvites _) | .request (.prune _) | .request (.rollUpDay _ _)
  | .request (.registerUrl _ _ _ _ _ _) | .request (.endorseUrl _ _)
  | .request (.recordUrlCheck _ _ _) | .storeTurns _ _ => []

/-! ## Observations -/

section

variable {o : Oracle} {id invite : Digest}

theorem names_commit {α : Type} {edits : List Edit} {result : α}
    (h : (o.commit edits result).2.tables.Names id invite) :
    o.tables.Names id invite ∨ ∃ e ∈ edits, e.Adds id invite := by
  rcases o.tables_commit edits result with htables | htables
  · exact Or.inl (htables ▸ h)
  · rw [htables] at h
    exact h.of_foldl_apply

theorem names_issue {count : Nat} {kind : MeasurementKind} {currency : Option String}
    {now blockHeight : UInt64}
    (h : (o.issue count kind currency now blockHeight).2.tables.Names id invite) :
    o.tables.Names id invite := by
  rcases o.tables_issue count kind currency now blockHeight with htables | htables
  · exact htables ▸ h
  · rw [htables] at h
    have hnames : ((o.issueEdits count kind currency now blockHeight).foldl Tables.apply
      o.tables).Names id invite := h
    refine hnames.of_foldl_apply.resolve_right ?_
    rintro ⟨e, he, hadds⟩
    rcases mem_issueEdits he with ⟨i, -, rfl⟩ | rfl
    · exact hadds
    · exact hadds

theorem names_renewal {α : Type} {out : Outcome α} (hkeyed : o.tables.Keyed)
    (hout : o.Renewal out) (h : out.2.tables.Names id invite) : o.tables.Names id invite := by
  cases hout with
  | refused => exact h
  | committed edits result hedits =>
    rcases names_commit h with h | ⟨e, he, hadds⟩
    · exact h
    · cases hedits e he with
      | rollup | url => exact hadds.elim
      | water hr hid hinvite =>
        obtain ⟨rfl, rfl⟩ := hadds
        exact Or.inl ⟨_, by rwa [hid, hkeyed.water _ _ hr], hinvite.symm⟩
      | rate hr hid hinvite =>
        obtain ⟨rfl, rfl⟩ := hadds
        exact Or.inr ⟨_, by rwa [hid, hkeyed.rates _ _ hr], hinvite.symm⟩

/-- A new observation comes of an accepted submission, and its id of what was hashed. -/
def Accounts (o : Oracle) (e : Event) (id invite : Digest) : Prop :=
  invite ∈ o.acceptedIn e ∧ ∃ p ∈ o.hashes e, id = sha3 p ∧ invite.bytes <:+ p

theorem names_submit {ω α : Type} [Quantity ω α] [LawfulQuantity ω] {s : Submission ω}
    {now : UInt64} (h : (o.submit s now).2.tables.Names id invite) :
    o.tables.Names id invite ∨ invite ∈ o.submissionAccepted s now ∧
      ∃ p ∈ o.submissionHashes s now, id = sha3 p ∧ invite.bytes <:+ p := by
  rcases o.submit_cases s now with ⟨why, heq⟩ | ⟨i, measured, moments, store, hscreen, -, heq⟩
  · rw [heq] at h
    exact Or.inl h
  · have hnames := h
    rw [heq] at hnames
    rcases Tables.Names.of_foldl_apply hnames with hnames | ⟨e, he, hadds⟩
    · exact Or.inl hnames
    · right
      have hput : id = sha3 (s.preimage measured) ∧ invite = s.inviteId := by
        rcases Acceptance.mem_edits he with rfl | rfl | rfl | ⟨_, _, rfl⟩
        · exact LawfulQuantity.adds_put _ hadds
        all_goals exact hadds.elim
      obtain ⟨rfl, rfl⟩ := hput
      refine ⟨?_, s.preimage measured, ?_, rfl, s.suffix_preimage measured⟩
      · rw [submissionAccepted, heq]
        exact List.mem_singleton.2 rfl
      · rw [submissionHashes, hscreen]
        exact List.mem_singleton.2 rfl

theorem names_step (hkeyed : o.tables.Keyed) {e : Event} (h : (o.step e).tables.Names id invite) :
    o.tables.Names id invite ∨ o.Accounts e id invite := by
  cases e with
  | storeTurns => exact Or.inl h
  | request r =>
    cases r with
    | issue => exact Or.inl (names_issue h)
    | issueForTarget target kind currency now blockHeight =>
      change (o.issueForTarget target kind currency now blockHeight).2.tables.Names id invite at h
      rcases o.issueForTarget_cases target kind currency now blockHeight with heq | ⟨count, heq⟩
      · exact Or.inl (heq ▸ h)
      · rw [heq] at h
        exact Or.inl (names_issue h)
    | submitWater => exact names_submit h
    | submitRate => exact names_submit h
    | expireInvites =>
      refine Or.inl ((names_commit h).resolve_right ?_)
      rintro ⟨e, he, hadds⟩
      obtain ⟨i, -, rfl⟩ := List.mem_map.1 he
      exact hadds
    | prune cutoff =>
      obtain ⟨edits, hdrops, heq⟩ := o.exists_prune_eq_commit cutoff
      change (o.prune cutoff).2.tables.Names id invite at h
      rw [heq] at h
      refine Or.inl ((names_commit h).resolve_right ?_)
      rintro ⟨e, he, hadds⟩
      have hdrop := hdrops e he
      cases e <;> first | exact hadds | exact hdrop
    | endorse => exact Or.inl (names_renewal hkeyed (renewal_endorse ..) h)
    | rollUpDay => exact Or.inl (names_renewal hkeyed (clerical_rollUpDay ..).renewal h)
    | registerUrl => exact Or.inl (names_renewal hkeyed (clerical_registerUrl ..).renewal h)
    | endorseUrl => exact Or.inl (names_renewal hkeyed (clerical_endorseUrl ..).renewal h)
    | recordUrlCheck => exact Or.inl (names_renewal hkeyed (clerical_recordUrlCheck ..).renewal h)

end

/-! ## Duplicates -/

def Outcome.error? {α : Type} (out : Outcome α) : Option OracleError :=
  match out.1 with
  | .ok _ => none
  | .error why => some why

def failure? (o : Oracle) : Request → Option OracleError
  | .issue count kind currency now blockHeight =>
    Outcome.error? (o.issue count kind currency now blockHeight)
  | .issueForTarget target kind currency now blockHeight =>
    Outcome.error? (o.issueForTarget target kind currency now blockHeight)
  | .submitWater s now => Outcome.error? (o.submit s now)
  | .submitRate s now => Outcome.error? (o.submit s now)
  | .endorse id validator => Outcome.error? (o.endorse id validator)
  | .expireInvites now => Outcome.error? (o.expireInvites now)
  | .prune cutoff => Outcome.error? (o.prune cutoff)
  | .rollUpDay date blockHeight => Outcome.error? (o.rollUpDay date blockHeight)
  | .registerUrl url kind currency submitter now blockHeight =>
    Outcome.error? (o.registerUrl url kind currency submitter now blockHeight)
  | .endorseUrl id validator => Outcome.error? (o.endorseUrl id validator)
  | .recordUrlCheck id success now => Outcome.error? (o.recordUrlCheck id success now)

section

variable {o : Oracle}

theorem commit_ne_duplicate {α : Type} (edits : List Edit) (result : α) :
    Outcome.error? (o.commit edits result) ≠ some (.refused .duplicate) := by
  rcases commit_cases o edits result with ⟨why, h⟩ | ⟨store, h⟩
  · rw [h]
    exact nofun
  · rw [h]
    exact nofun

theorem issue_ne_duplicate (count : Nat) (kind : MeasurementKind) (currency : Option String)
    (now blockHeight : UInt64) :
    Outcome.error? (o.issue count kind currency now blockHeight) ≠ some (.refused .duplicate) := by
  unfold issue
  dsimp only
  split
  · exact nofun
  · generalize hcommit : o.commit _ _ = out
    have h := hcommit ▸ commit_ne_duplicate (o := o) _ _
    rcases out with ⟨_ | _, o'⟩
    · exact h
    · exact nofun

theorem Renewal.ne_duplicate {α : Type} {out : Outcome α} (h : o.Renewal out) :
    Outcome.error? out ≠ some (.refused .duplicate) := by
  cases h with
  | refused hwhy => exact fun h => hwhy (Option.some.inj h)
  | committed edits result => exact commit_ne_duplicate edits result

/-- The duplicate of an observation that is kept, sent for an invite that is open. -/
def Duplicates (o : Oracle) (hashed : List Bytes) : Prop :=
  ∃ p ∈ hashed, ∃ (id : Digest) (i : Invite), id.bytes <:+ p ∧ o.tables.invites[id]? = some i ∧
    i.isUsed = false ∧ ∃ id', o.tables.Names (sha3 p) id'

theorem duplicates_of_submit {ω α : Type} [Quantity ω α] [LawfulQuantity ω] {s : Submission ω}
    {now : UInt64} (h : Outcome.error? (o.submit s now) = some (.refused .duplicate)) :
    o.Duplicates (o.submissionHashes s now) := by
  unfold submit at h
  split at h
  · next why hjudge =>
    obtain rfl := OracleError.refused.inj (Option.some.inj h)
    obtain ⟨invite, measured, hscreen, hmem⟩ := judge_of_duplicate hjudge
    obtain ⟨hinvite, -, -, -, hused, -⟩ := usableInvite_of_ok (screen_of_ok hscreen).1
    refine ⟨s.preimage measured, ?_, s.inviteId, invite, s.suffix_preimage measured, hinvite, hused,
      LawfulQuantity.names_of_mem o.tables hmem⟩
    rw [submissionHashes, hscreen]
    exact List.mem_singleton.2 rfl
  · exact absurd h (commit_ne_duplicate _ _)

/-- Only a submission is refused as a duplicate. -/
theorem duplicates_of_failure? {r : Request} (h : o.failure? r = some (.refused .duplicate)) :
    o.Duplicates (o.hashes (.request r)) := by
  cases r with
  | issue => exact absurd h (issue_ne_duplicate _ _ _ _ _)
  | issueForTarget target kind currency now blockHeight =>
    change Outcome.error? (o.issueForTarget target kind currency now blockHeight) = _ at h
    unfold issueForTarget at h
    split at h
    · exact absurd h (issue_ne_duplicate _ _ _ _ _)
    · exact nomatch h
  | submitWater => exact duplicates_of_submit h
  | submitRate => exact duplicates_of_submit h
  | expireInvites => exact absurd h (commit_ne_duplicate _ _)
  | prune => exact absurd h (commit_ne_duplicate _ _)
  | endorse => exact absurd h (renewal_endorse ..).ne_duplicate
  | rollUpDay => exact absurd h (clerical_rollUpDay ..).renewal.ne_duplicate
  | registerUrl => exact absurd h (clerical_registerUrl ..).renewal.ne_duplicate
  | endorseUrl => exact absurd h (clerical_endorseUrl ..).renewal.ne_duplicate
  | recordUrlCheck => exact absurd h (clerical_recordUrlCheck ..).renewal.ne_duplicate

end

end Oracle

end WaterPeg
