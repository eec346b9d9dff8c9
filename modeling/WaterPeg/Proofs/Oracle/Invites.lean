import WaterPeg.Proofs.Oracle.Provenance

/-! What one event does to an invite. -/
namespace WaterPeg.Oracle

inductive Turn (o : Oracle) (e : Event) (id : Digest) : Option Invite → Option Invite → Prop
  | kept (i : Option Invite) : Turn o e id i i
  | issued (before : Option Invite) {i : Invite}
      (hid : id = Invite.idOf i.user i.createdAt i.sequence)
      (hhashed : Invite.preimage i.user i.createdAt i.sequence ∈ o.hashes e)
      (hplace : o.tables.nextSequence ≤ i.sequence.toNat ∧
        i.sequence.toNat < (o.step e).tables.nextSequence)
      (hopen : i.isUsed = false ∧ i.isExpired = false) : Turn o e id before (some i)
  | used {i : Invite} (hopen : i.isUsed = false ∧ i.isExpired = false) :
      Turn o e id (some i) (some { i with isUsed := true })
  | expired {i : Invite} (hopen : i.isUsed = false ∧ i.isExpired = false) :
      Turn o e id (some i) (some { i with isExpired := true })
  | dropped {i : Invite} (cutoff : UInt64) (he : e = .request (.prune cutoff)) :
      Turn o e id (some i) none

theorem mem_draft {o : Oracle} {count : Nat} {kind : MeasurementKind} {currency : Option String}
    {now blockHeight : UInt64} {i : Invite} (h : i ∈ o.draft count kind currency now blockHeight) :
    i.id = Invite.idOf i.user i.createdAt i.sequence ∧ i.isUsed = false ∧ i.isExpired = false ∧
      ∃ n < (o.draft count kind currency now blockHeight).length,
        i.sequence = UInt64.ofNat (o.tables.nextSequence + n) := by
  obtain ⟨n, hn, rfl⟩ := List.mem_mapIdx.1 h
  refine ⟨rfl, rfl, rfl, n, ?_, rfl⟩
  rwa [draft, List.length_mapIdx]

theorem invites_issueEdits (o : Oracle) (count : Nat) (kind : MeasurementKind)
    (currency : Option String) (now blockHeight : UInt64) :
    ((o.issueEdits count kind currency now blockHeight).foldl Tables.apply o.tables).invites =
      (o.draft count kind currency now blockHeight).foldl (fun m i => m.insert i.id i)
        o.tables.invites := by
  rw [issueEdits, List.foldl_append]
  exact o.tables.invites_foldl_putInvite id _

section

variable {o : Oracle} {e : Event}

theorem turn_issue {count : Nat} {kind : MeasurementKind} {currency : Option String}
    {now blockHeight : UInt64}
    (hhashes : o.hashes e = o.draftHashes count kind currency now blockHeight)
    (hstep : o.step e = (o.issue count kind currency now blockHeight).2)
    (hcount : (o.step e).tables.nextSequence ≤ UInt64.size) (id : Digest) :
    o.Turn e id o.tables.invites[id]? (o.step e).tables.invites[id]? := by
  rcases o.tables_issue count kind currency now blockHeight with h | h
  · rw [hstep, h]
    exact .kept _
  · have hinvites : (o.step e).tables.invites =
        (o.draft count kind currency now blockHeight).foldl (fun m i => m.insert i.id i)
          o.tables.invites := by
      rw [hstep, h]
      exact o.invites_issueEdits ..
    have hnext : (o.step e).tables.nextSequence = o.tables.nextSequence +
        (o.draft count kind currency now blockHeight).length := by
      rw [hstep, h]
    rw [hinvites]
    rcases Table.getElem?_foldl_insert_cases Invite.id (fun i => i)
      (o.draft count kind currency now blockHeight) o.tables.invites id with
      ⟨i, hi, rfl, hget⟩ | ⟨-, hget⟩
    · obtain ⟨hid, hused, hexpired, n, hn, hsequence⟩ := mem_draft hi
      have hplace : i.sequence.toNat = o.tables.nextSequence + n := by
        rw [hsequence, UInt64.toNat_ofNat']
        exact Nat.mod_eq_of_lt (by have : UInt64.size = 2 ^ 64 := rfl; omega)
      rw [hget]
      refine .issued _ hid ?_ (by omega) ⟨hused, hexpired⟩
      rw [hhashes]
      exact List.mem_map_of_mem hi
    · rw [hget]
      exact .kept _

theorem invites_acceptance {ω α : Type} [Quantity ω α] [LawfulQuantity ω] (o : Oracle)
    (s : Submission ω) (now : UInt64) (invite : Invite) (measured : α) (moments : Option Moments)
    (t : Tables) :
    (((o.acceptance s now invite measured moments).edits (Quantity.put ω)).foldl
      Tables.apply t).invites = t.invites.insert invite.id { invite with isUsed := true } := by
  unfold Acceptance.edits
  rw [List.foldl_append, Tables.invites_foldl_apply]
  · have hput : (t.apply (Quantity.put ω (o.acceptance s now invite measured moments).reading)).invites
        = t.invites := t.invites_apply (LawfulQuantity.keepsInvites_put _)
    rw [← hput]
    rfl
  · intro e he
    split at he
    · rw [List.mem_singleton.1 he]
      trivial
    · exact nomatch he

theorem turn_submit {ω α : Type} [Quantity ω α] [LawfulQuantity ω] (hkeyed : o.tables.Keyed)
    {s : Submission ω} {now : UInt64} (hstep : o.step e = (o.submit s now).2) (id : Digest) :
    o.Turn e id o.tables.invites[id]? (o.step e).tables.invites[id]? := by
  rw [hstep]
  rcases o.submit_cases s now with ⟨why, h⟩ | ⟨invite, measured, moments, store, hscreen, -, h⟩
  · rw [h]
    exact .kept _
  · obtain ⟨hinvite, -, -, -, hused, hexpired, -⟩ := usableInvite_of_ok (screen_of_ok hscreen).1
    rw [h]
    dsimp only
    rw [invites_acceptance, Std.ExtTreeMap.getElem?_insert]
    split
    · next heq =>
      obtain rfl := Std.LawfulEqCmp.eq_of_compare heq
      have hself : o.tables.invites[invite.id]? = some invite := by
        rw [hkeyed.invites _ _ hinvite]
        exact hinvite
      rw [hself]
      exact .used ⟨hused, hexpired⟩
    · exact .kept _

theorem turn_expireInvites (hkeyed : o.tables.Keyed) {now : UInt64}
    (hstep : o.step e = (o.expireInvites now).2) (id : Digest) :
    o.Turn e id o.tables.invites[id]? (o.step e).tables.invites[id]? := by
  have htables : (o.expireInvites now).2.tables = o.tables ∨ (o.expireInvites now).2.tables =
      ((o.lapsed now).map fun i => .putInvite { i with isExpired := true }).foldl Tables.apply
        o.tables := o.tables_commit _ _
  rw [hstep]
  rcases htables with h | h
  · rw [h]
    exact .kept _
  · rw [h, o.tables.invites_foldl_putInvite fun i => { i with isExpired := true }]
    rcases Table.getElem?_foldl_insert_cases Invite.id (fun i => { i with isExpired := true })
      (o.lapsed now) o.tables.invites id with ⟨i, hi, rfl, hget⟩ | ⟨-, hget⟩
    · obtain ⟨hvalue, hopen⟩ := List.mem_filter.1 hi
      obtain ⟨k, hk⟩ := Table.mem_values.1 hvalue
      obtain rfl := hkeyed.invites k i hk
      simp only [Bool.and_eq_true, Bool.not_eq_eq_eq_not, Bool.not_true] at hopen
      rw [hget, hk]
      exact .expired hopen.1
    · rw [hget]
      exact .kept _

theorem turn_prune {cutoff : UInt64} (he : e = .request (.prune cutoff)) (id : Digest) :
    o.Turn e id o.tables.invites[id]? (o.step e).tables.invites[id]? := by
  have hget : (o.step e).tables.invites[id]? = o.tables.invites[id]? ∨
      (o.step e).tables.invites[id]? = none := by
    rw [he]
    exact (o.thinned_prune cutoff).invites id
  rcases hget with hget | hget
  · rw [hget]
    exact .kept _
  · rw [hget]
    cases o.tables.invites[id]? with
    | none => exact .kept _
    | some i => exact .dropped cutoff he

theorem turn_renewal {α : Type} {out : Outcome α} (hout : o.Renewal out)
    (hstep : o.step e = out.2) (id : Digest) :
    o.Turn e id o.tables.invites[id]? (o.step e).tables.invites[id]? := by
  rw [hstep]
  cases hout with
  | refused => exact .kept _
  | committed edits result hedits =>
    have hinvites : (edits.foldl Tables.apply o.tables).invites = o.tables.invites := by
      refine o.tables.invites_foldl_apply fun f hf => ?_
      cases hedits f hf <;> trivial
    rcases o.tables_commit edits result with h | h
    · rw [h]
      exact .kept _
    · rw [h, hinvites]
      exact .kept _

/-- Under every id, one event keeps the invite, issues one, uses or flags the open one, or drops
one. -/
theorem turn_step (hkeyed : o.tables.Keyed)
    (hcount : (o.step e).tables.nextSequence ≤ UInt64.size) (id : Digest) :
    o.Turn e id o.tables.invites[id]? (o.step e).tables.invites[id]? := by
  cases e with
  | storeTurns => exact .kept _
  | request r =>
    cases r with
    | issue => exact turn_issue rfl rfl hcount id
    | issueForTarget target kind currency now blockHeight =>
      by_cases hready : o.isReady kind currency blockHeight
      · have hhashes : o.hashes (.request (.issueForTarget target kind currency now blockHeight)) =
            o.draftHashes (o.targetCount target kind currency) kind currency now blockHeight :=
          if_pos hready
        exact turn_issue hhashes (congrArg Prod.snd (if_pos hready)) hcount id
      · have hstep : o.step (.request (.issueForTarget target kind currency now blockHeight)) = o :=
          congrArg Prod.snd (if_neg hready)
        rw [hstep]
        exact .kept _
    | submitWater => exact turn_submit hkeyed rfl id
    | submitRate => exact turn_submit hkeyed rfl id
    | expireInvites => exact turn_expireInvites hkeyed rfl id
    | prune => exact turn_prune rfl id
    | endorse => exact turn_renewal (renewal_endorse ..) rfl id
    | rollUpDay => exact turn_renewal (clerical_rollUpDay ..).renewal rfl id
    | registerUrl => exact turn_renewal (clerical_registerUrl ..).renewal rfl id
    | endorseUrl => exact turn_renewal (clerical_endorseUrl ..).renewal rfl id
    | recordUrlCheck => exact turn_renewal (clerical_recordUrlCheck ..).renewal rfl id

end

/-! ## Acceptance -/

theorem submissionAccepted_cases {ω α : Type} [Quantity ω α] [LawfulQuantity ω] {o : Oracle}
    (hkeyed : o.tables.Keyed) (s : Submission ω) (now : UInt64) :
    o.submissionAccepted s now = [] ∨ ∃ id i, o.submissionAccepted s now = [id] ∧
      o.tables.invites[id]? = some i ∧ i.isUsed = false ∧
      (o.submit s now).2.tables.invites[id]? = some { i with isUsed := true } := by
  rcases o.submit_cases s now with ⟨why, h⟩ | ⟨invite, measured, moments, store, hscreen, -, h⟩
  · left
    rw [submissionAccepted, h]
  · obtain ⟨hinvite, -, -, -, hused, -⟩ := usableInvite_of_ok (screen_of_ok hscreen).1
    refine Or.inr ⟨s.inviteId, invite, ?_, hinvite, hused, ?_⟩
    · rw [submissionAccepted, h]
    · rw [h]
      dsimp only
      rw [invites_acceptance, ← hkeyed.invites _ _ hinvite, Std.ExtTreeMap.getElem?_insert_self]

/-- An event uses up the invite of the submission that it accepts. -/
theorem acceptedIn_cases {o : Oracle} (hkeyed : o.tables.Keyed) (e : Event) :
    o.acceptedIn e = [] ∨ ∃ id i, o.acceptedIn e = [id] ∧ o.tables.invites[id]? = some i ∧
      i.isUsed = false ∧ (o.step e).tables.invites[id]? = some { i with isUsed := true } := by
  cases e with
  | storeTurns => exact Or.inl rfl
  | request r =>
    cases r with
    | submitWater s now => exact submissionAccepted_cases hkeyed s now
    | submitRate s now => exact submissionAccepted_cases hkeyed s now
    | _ => exact Or.inl rfl

end WaterPeg.Oracle
