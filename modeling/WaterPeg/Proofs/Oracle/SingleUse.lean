import WaterPeg.Proofs.Oracle.Invites
import WaterPeg.Proofs.Oracle.Mirror

/-!
An invite is good for one observation. In every run from an empty store the used invites are those of
the accepted submissions, each of them once, and nothing makes an invite open again.
-/
namespace WaterPeg

namespace Oracle

def hashed (o : Oracle) : List Event → List Bytes
  | [] => []
  | e :: events => o.hashes e ++ (o.step e).hashed events

def accepted (o : Oracle) : List Event → List Digest
  | [] => []
  | e :: events => o.acceptedIn e ++ (o.step e).accepted events

/-- A prune among the events took the used invite away. -/
def Dropped (o : Oracle) (events : List Event) (id : Digest) : Prop :=
  ∃ before cutoff after, events = before ++ .request (.prune cutoff) :: after ∧
    (∃ i, (o.run before).tables.invites[id]? = some i ∧ i.isUsed) ∧
    ((o.run before).step (.request (.prune cutoff))).tables.invites[id]? = none

/-- The invite is used, if it is not gone after a prune. -/
def Spent (o : Oracle) (events : List Event) (id : Digest) : Prop :=
  (∃ i, (o.run events).tables.invites[id]? = some i ∧ i.isUsed) ∨
    (o.run events).tables.invites[id]? = none ∧ o.Dropped events id

/-! ## One more event -/

theorem run_concat (o : Oracle) (past : List Event) (e : Event) :
    o.run (past ++ [e]) = (o.run past).step e := List.foldl_append

theorem run_append (o : Oracle) (events events' : List Event) :
    o.run (events ++ events') = (o.run events).run events' := List.foldl_append

theorem nextSequence_le_run (o : Oracle) (events : List Event) :
    o.tables.nextSequence ≤ (o.run events).tables.nextSequence := by
  induction events generalizing o with
  | nil => exact Nat.le_refl _
  | cons e events ih => exact Nat.le_trans (edited_step o e).nextSequence_le (ih _)

theorem hashed_append (o : Oracle) (events events' : List Event) :
    o.hashed (events ++ events') = o.hashed events ++ (o.run events).hashed events' := by
  induction events generalizing o with
  | nil => rfl
  | cons e events ih => exact (congrArg (o.hashes e ++ ·) (ih _)).trans (List.append_assoc ..).symm

theorem hashed_concat (o : Oracle) (past : List Event) (e : Event) :
    o.hashed (past ++ [e]) = o.hashed past ++ (o.run past).hashes e := by
  rw [hashed_append, hashed, hashed, List.append_nil]

theorem accepted_concat (o : Oracle) (past : List Event) (e : Event) :
    o.accepted (past ++ [e]) = o.accepted past ++ (o.run past).acceptedIn e := by
  induction past generalizing o with
  | nil => exact List.append_nil _
  | cons f past ih => exact (congrArg (o.acceptedIn f ++ ·) (ih _)).trans (List.append_assoc ..).symm

theorem Dropped.concat {o : Oracle} {past : List Event} {id : Digest} (h : o.Dropped past id)
    (e : Event) : o.Dropped (past ++ [e]) id := by
  obtain ⟨before, cutoff, after, rfl, hbefore, hafter⟩ := h
  exact ⟨before, cutoff, after ++ [e], by simp, hbefore, hafter⟩

theorem noCollision_of_append {o : Oracle} {events events' : List Event}
    (h : NoCollision (o.hashed (events ++ events'))) : NoCollision (o.hashed events) := by
  rw [hashed_append] at h
  exact h.subset (List.subset_append_left _ _)

theorem nextSequence_le_of_append {o : Oracle} {events events' : List Event} {n : Nat}
    (h : (o.run (events ++ events')).tables.nextSequence ≤ n) :
    (o.run events).tables.nextSequence ≤ n := by
  rw [run_append] at h
  exact Nat.le_trans (nextSequence_le_run _ events') h

/-! ## Invites that were issued before -/

/-- The id is that of an invite before the place `n` in the order of issue. -/
def Issued (texts : List Bytes) (n : Nat) (id : Digest) : Prop :=
  ∃ user createdAt sequence, Invite.preimage user createdAt sequence ∈ texts ∧
    sequence.toNat < n ∧ id = Invite.idOf user createdAt sequence

theorem Issued.mono {texts texts' : List Bytes} {n n' : Nat} {id : Digest} (h : Issued texts n id)
    (hsub : texts ⊆ texts') (hn : n ≤ n') : Issued texts' n' id := by
  obtain ⟨user, createdAt, sequence, hmem, hplace, hid⟩ := h
  exact ⟨user, createdAt, sequence, hsub hmem, Nat.lt_of_lt_of_le hplace hn, hid⟩

/-- What an invite turns into: itself with more of its flags set, or nothing. -/
def Advances (before after : Option Invite) : Prop :=
  ∀ i', after = some i' →
    ∃ i, before = some i ∧ (i.isUsed → i'.isUsed) ∧ (i.isExpired → i'.isExpired)

theorem Advances.refl (i : Option Invite) : Advances i i := fun i' h => ⟨i', h, id, id⟩

theorem Advances.trans {a b c : Option Invite} (hab : Advances a b) (hbc : Advances b c) :
    Advances a c := by
  intro i'' hi''
  obtain ⟨i', hi', hused', hexpired'⟩ := hbc i'' hi''
  obtain ⟨i, hi, hused, hexpired⟩ := hab i' hi'
  exact ⟨i, hi, hused' ∘ hused, hexpired' ∘ hexpired⟩

section

variable {o : Oracle} {e : Event} {id : Digest} {before after : Option Invite} {texts : List Bytes}

/-- An id is not issued twice. -/
theorem Issued.place_eq {user : String} {createdAt sequence : UInt64} {n : Nat}
    (h : Issued texts n id) (hcollision : NoCollision (texts ++ o.hashes e))
    (hid : id = Invite.idOf user createdAt sequence)
    (hhashed : Invite.preimage user createdAt sequence ∈ o.hashes e) : sequence.toNat < n := by
  obtain ⟨user', createdAt', sequence', hmem, hplace, hid'⟩ := h
  have hpreimage : Invite.preimage user' createdAt' sequence' =
      Invite.preimage user createdAt sequence :=
    hcollision _ (List.mem_append_left _ hmem) _ (List.mem_append_right _ hhashed)
      (hid'.symm.trans hid)
  rw [← Invite.sequence_of_preimage_eq hpreimage]
  exact hplace

theorem Turn.advances (hturn : o.Turn e id before after) (h : Issued texts o.tables.nextSequence id)
    (hcollision : NoCollision (texts ++ o.hashes e)) : Advances before after := by
  cases hturn with
  | kept => exact .refl _
  | issued _ hid hhashed hplace =>
    exact absurd (h.place_eq hcollision hid hhashed) (Nat.not_lt.2 hplace.1)
  | @used i hopen =>
    rintro _ ⟨⟩
    exact ⟨i, rfl, fun _ => rfl, fun h => h⟩
  | @expired i hopen =>
    rintro _ ⟨⟩
    exact ⟨i, rfl, fun h => h, fun _ => rfl⟩
  | dropped => exact nofun

/-- Only a prune takes an issued invite away. -/
theorem Turn.prune_of_none (hturn : o.Turn e id before after) {i : Invite} (hbefore : before = some i)
    (hafter : after = none) : ∃ cutoff, e = .request (.prune cutoff) := by
  cases hturn with
  | kept => exact nomatch hbefore.symm.trans hafter
  | issued | used | expired => exact nomatch hafter
  | dropped cutoff he => exact ⟨cutoff, he⟩

/-- No turn leaves an invite both used and flagged. -/
theorem Turn.apart (hturn : o.Turn e id before after)
    (h : ∀ i, before = some i → ¬(i.isUsed ∧ i.isExpired)) (i : Invite) (hi : after = some i) :
    ¬(i.isUsed ∧ i.isExpired) := by
  cases hturn with
  | kept => exact h i hi
  | issued _ _ _ _ hopen | used hopen | expired hopen =>
    obtain rfl := Option.some.inj hi
    simp [hopen]
  | dropped => exact nomatch hi

theorem Turn.issued_of_isSome (hturn : o.Turn e id before after)
    (h : before.isSome → Issued texts o.tables.nextSequence id) (hafter : after.isSome)
    (hn : o.tables.nextSequence ≤ (o.step e).tables.nextSequence) :
    Issued (texts ++ o.hashes e) (o.step e).tables.nextSequence id := by
  have hold (hbefore : before.isSome) :
      Issued (texts ++ o.hashes e) (o.step e).tables.nextSequence id :=
    (h hbefore).mono (List.subset_append_left _ _) hn
  cases hturn with
  | kept => exact hold hafter
  | used | expired | dropped => exact hold rfl
  | issued _ hid hhashed hplace =>
    exact ⟨_, _, _, List.mem_append_right _ hhashed, hplace.2, hid⟩

end

/-! ## Runs -/

structure Accounted (o : Oracle) (past : List Event) : Prop where
  keyed : (o.run past).tables.Keyed
  /-- An invite that was there at any time was issued, and only its flags have changed since. -/
  lasting : ∀ before, before <+: past → ∀ id : Digest,
    (o.run before).tables.invites[id]?.isSome →
      Issued (o.hashed past) (o.run past).tables.nextSequence id ∧
        Advances (o.run before).tables.invites[id]? (o.run past).tables.invites[id]?
  apart : ∀ (id : Digest) i, (o.run past).tables.invites[id]? = some i →
    ¬(i.isUsed ∧ i.isExpired)
  named : ∀ id invite, (o.run past).tables.Names id invite →
    invite ∈ o.accepted past ∧ ∃ p ∈ o.hashed past, id = sha3 p ∧ invite.bytes <:+ p
  spent : ∀ id ∈ o.accepted past,
    Issued (o.hashed past) (o.run past).tables.nextSequence id ∧ o.Spent past id
  nodup : (o.accepted past).Nodup

theorem accounted_nil {o : Oracle} (h : o.tables = .empty) : o.Accounted [] where
  keyed := by
    change o.tables.Keyed
    rw [h]
    exact Tables.keyed_empty
  lasting before hbefore id hid := by
    rw [List.prefix_nil.1 hbefore] at hid
    change o.tables.invites[id]?.isSome at hid
    rw [h] at hid
    simp [Tables.empty] at hid
  apart id i hi := by
    change o.tables.invites[id]? = some i at hi
    rw [h] at hi
    simp [Tables.empty] at hi
  named id invite hnames := by
    change o.tables.Names id invite at hnames
    rw [h] at hnames
    simp [Tables.Names, Tables.empty] at hnames
  spent id hid := nomatch hid
  nodup := .nil

namespace Accounted

variable {o : Oracle} {past : List Event} {e : Event} (h : o.Accounted past)
  (hcollision : NoCollision (o.hashed (past ++ [e])))
  (hcount : (o.run (past ++ [e])).tables.nextSequence ≤ UInt64.size)

include h hcount in
theorem turn (id : Digest) : (o.run past).Turn e id (o.run past).tables.invites[id]?
    (o.run (past ++ [e])).tables.invites[id]? := by
  rw [run_concat] at hcount ⊢
  exact turn_step h.keyed hcount id

omit h in
theorem issued_concat {id : Digest}
    (hid : Issued (o.hashed past) (o.run past).tables.nextSequence id) :
    Issued (o.hashed (past ++ [e])) (o.run (past ++ [e])).tables.nextSequence id := by
  rw [hashed_concat, run_concat]
  exact hid.mono (List.subset_append_left _ _) (edited_step _ _).nextSequence_le

include h hcollision hcount in
theorem advances {id : Digest}
    (hid : Issued (o.hashed past) (o.run past).tables.nextSequence id) :
    Advances (o.run past).tables.invites[id]? (o.run (past ++ [e])).tables.invites[id]? := by
  rw [hashed_concat] at hcollision
  exact (h.turn hcount id).advances hid hcollision

include h hcollision hcount in
/-- An invite that is spent stays so. -/
theorem spent_concat {id : Digest}
    (hid : Issued (o.hashed past) (o.run past).tables.nextSequence id) (hspent : o.Spent past id) :
    o.Spent (past ++ [e]) id := by
  have hadvances := h.advances hcollision hcount hid
  cases hafter : (o.run (past ++ [e])).tables.invites[id]? with
  | some i' =>
    obtain ⟨i, hi, hused, -⟩ := hadvances i' hafter
    rcases hspent with ⟨j, hj, hjused⟩ | ⟨hnone, -⟩
    · obtain rfl := Option.some.inj (hi.symm.trans hj)
      exact Or.inl ⟨i', hafter, hused hjused⟩
    · exact nomatch hi.symm.trans hnone
  | none =>
    refine Or.inr ⟨hafter, ?_⟩
    rcases hspent with ⟨i, hi, hused⟩ | ⟨-, hdropped⟩
    · obtain ⟨cutoff, rfl⟩ := (h.turn hcount id).prune_of_none hi hafter
      rw [run_concat] at hafter
      exact ⟨past, cutoff, [], rfl, ⟨i, hi, hused⟩, hafter⟩
    · exact hdropped.concat e

include h hcollision hcount in
theorem concat : o.Accounted (past ++ [e]) where
  keyed := by
    rw [run_concat]
    exact (edited_step _ _).keyed h.keyed
  lasting before hbefore id hid := by
    rcases List.prefix_concat_iff.1 hbefore with rfl | hbefore
    · refine ⟨?_, .refl _⟩
      have hissued := (h.turn hcount id).issued_of_isSome
        (fun hsome => (h.lasting past (List.prefix_refl past) id hsome).1) hid
        (edited_step _ _).nextSequence_le
      rwa [hashed_concat, run_concat]
    · obtain ⟨hissued, hadvances⟩ := h.lasting before hbefore id hid
      exact ⟨issued_concat hissued, hadvances.trans (h.advances hcollision hcount hissued)⟩
  apart id := (h.turn hcount id).apart (h.apart id)
  named id invite hnames := by
    rw [run_concat] at hnames
    rw [accepted_concat, hashed_concat]
    rcases names_step h.keyed hnames with hnames | ⟨haccepted, p, hp, hid⟩
    · obtain ⟨haccepted, p, hp, hid⟩ := h.named id invite hnames
      exact ⟨List.mem_append_left _ haccepted, p, List.mem_append_left _ hp, hid⟩
    · exact ⟨List.mem_append_right _ haccepted, p, List.mem_append_right _ hp, hid⟩
  spent id hid := by
    rw [accepted_concat] at hid
    rcases List.mem_append.1 hid with hid | hid
    · obtain ⟨hissued, hspent⟩ := h.spent id hid
      exact ⟨issued_concat hissued, h.spent_concat hcollision hcount hissued hspent⟩
    · rcases acceptedIn_cases h.keyed e with hnil | ⟨id', i, hone, hi, hused, hafter⟩
      · rw [hnil] at hid
        exact nomatch hid
      · rw [hone] at hid
        obtain rfl := List.mem_singleton.1 hid
        have hissued := (h.lasting past (List.prefix_refl past) id (by rw [hi]; rfl)).1
        rw [← run_concat] at hafter
        exact ⟨issued_concat hissued, Or.inl ⟨_, hafter, rfl⟩⟩
  nodup := by
    rw [accepted_concat]
    rcases acceptedIn_cases h.keyed e with hnil | ⟨id, i, hone, hi, hused, -⟩
    · rw [hnil, List.append_nil]
      exact h.nodup
    · rw [hone]
      refine List.nodup_append.2 ⟨h.nodup, by simp, ?_⟩
      rintro id' haccepted _ hid rfl
      rw [List.mem_singleton.1 hid] at haccepted
      rcases (h.spent id haccepted).2 with ⟨j, hj, hjused⟩ | ⟨hnone, -⟩
      · obtain rfl := Option.some.inj (hi.symm.trans hj)
        rw [hused] at hjused
        exact nomatch hjused
      · exact nomatch hi.symm.trans hnone

include h in
/-- No request is refused as a duplicate: the observation would be one of the same invite. -/
theorem failure?_ne_duplicate {r : Request}
    (hcollision : NoCollision (o.hashed (past ++ [.request r]))) :
    (o.run past).failure? r ≠ some (.refused .duplicate) := by
  intro hfailure
  obtain ⟨p, hp, id, i, hsuffix, hi, hused, id', hnames⟩ := duplicates_of_failure? hfailure
  obtain ⟨haccepted, p', hp', hdigest, hsuffix'⟩ := h.named _ id' hnames
  rw [hashed_concat] at hcollision
  obtain rfl := hcollision _ (List.mem_append_right _ hp) _ (List.mem_append_left _ hp') hdigest
  obtain rfl := Digest.eq_of_suffix hsuffix hsuffix'
  rcases (h.spent id haccepted).2 with ⟨j, hj, hjused⟩ | ⟨hnone, -⟩
  · obtain rfl := Option.some.inj (hi.symm.trans hj)
    rw [hused] at hjused
    exact nomatch hjused
  · exact nomatch hi.symm.trans hnone

include h in
theorem append {events : List Event} (hcollision : NoCollision (o.hashed (past ++ events)))
    (hcount : (o.run (past ++ events)).tables.nextSequence ≤ UInt64.size) :
    o.Accounted (past ++ events) := by
  induction events generalizing past with
  | nil => rwa [List.append_nil]
  | cons e events ih =>
    rw [List.append_cons] at hcollision hcount ⊢
    have hfirst := h.concat (noCollision_of_append hcollision) (nextSequence_le_of_append hcount)
    exact ih hfirst hcollision hcount

end Accounted

/-- An oracle that began over an empty store accepts at most one submission for an invite. The invite
of an observation is used, or a prune has dropped it. No invite is both used and flagged as expired,
no flag is ever taken back, and no request is refused as a duplicate. This rests on the digest telling
the hashed preimages apart, and on the places of the invites fitting in a word. -/
theorem singleUse_of_run {store : Store} {directory : Directory} {config : Config} {o : Oracle}
    (hempty : store.entries = ∅) (hbegin : begin? store directory config = .ok o)
    {events : List Event} (hcollision : NoCollision (o.hashed events))
    (hcount : (o.run events).tables.nextSequence ≤ UInt64.size) :
    (o.accepted events).Nodup ∧
      (∀ id invite, (o.run events).tables.Names id invite → o.Spent events invite) ∧
      (∀ (id : Digest) i, (o.run events).tables.invites[id]? = some i →
        ¬(i.isUsed ∧ i.isExpired)) ∧
      (∀ before, before <+: events → ∀ (id : Digest) i i',
        (o.run before).tables.invites[id]? = some i →
        (o.run events).tables.invites[id]? = some i' →
          (i.isUsed → i'.isUsed) ∧ (i.isExpired → i'.isExpired)) ∧
      ∀ before r after, events = before ++ .request r :: after →
        (o.run before).failure? r ≠ some (.refused .duplicate) := by
  have hbegun : o.Accounted [] := accounted_nil (tables_of_begin?_of_empty hempty hbegin)
  have h : o.Accounted events := hbegun.append hcollision hcount
  refine ⟨h.nodup, ?_, h.apart, ?_, ?_⟩
  · exact fun id invite hnames => (h.spent invite (h.named id invite hnames).1).2
  · intro before hbefore id i i' hi hi'
    obtain ⟨j, hj, hflags⟩ := (h.lasting before hbefore id (by rw [hi]; rfl)).2 i' hi'
    obtain rfl := Option.some.inj (hi.symm.trans hj)
    exact hflags
  · rintro before r after rfl
    have hbefore := hbegun.append (noCollision_of_append hcollision)
      (nextSequence_le_of_append hcount)
    rw [List.append_cons] at hcollision
    exact hbefore.failure?_ne_duplicate (noCollision_of_append hcollision)

theorem singleUse_of_adasRun :
    (fresh adaAlone {}).accepted adasRun = [adasPrice.inviteId] ∧
      ((fresh adaAlone {}).run adasRun).tables.water.size = 1 ∧
      ∀ id invite, ((fresh adaAlone {}).run adasRun).tables.Names id invite →
        (fresh adaAlone {}).Spent adasRun invite := by
  have hbegin : begin? .empty adaAlone {} = .ok (fresh adaAlone {}) := rfl
  have hcollision : NoCollision ((fresh adaAlone {}).hashed adasRun) := by
    unfold NoCollision
    decide +kernel
  have hcount : ((fresh adaAlone {}).run adasRun).tables.nextSequence ≤ UInt64.size := by
    decide +kernel
  obtain ⟨-, hspent, -⟩ := singleUse_of_run rfl hbegin hcollision hcount
  exact ⟨by decide +kernel, by decide +kernel, hspent⟩

end Oracle

end WaterPeg
