import WaterPeg.Proofs.Oracle.Invites
import WaterPeg.Proofs.Store.Shelves

/-!
Issues and acceptances, as the turnouts record them. An event issues invites and counts them, or
accepts a submission and counts its invite as answered, or leaves the turnouts and the order of
issue alone. The stored turnouts go with it.
-/
namespace WaterPeg

def Invite.turnoutKey (i : Invite) : TurnoutKey := ⟨i.currency, i.kind⟩

def Edit.KeepsTurnouts : Edit → Prop
  | .putTurnout _ => False
  | .putWater _ | .putRate _ | .putInvite _ | .putRollup _ | .putUrl _ | .putFirstSeen _ _
  | .dropWater _ | .dropRate _ | .dropInvite _ => True

theorem Tables.turnouts_apply (t : Tables) {e : Edit} (h : e.KeepsTurnouts) :
    (t.apply e).turnouts = t.turnouts := by
  cases e <;> first | rfl | exact h.elim

theorem Tables.turnouts_foldl_apply (t : Tables) {edits : List Edit}
    (h : ∀ e ∈ edits, e.KeepsTurnouts) : (edits.foldl apply t).turnouts = t.turnouts :=
  foldl_apply_keeps turnouts (fun e he t => t.turnouts_apply (h e he)) t

def Store.SameTurnouts (entries entries' : Table Bytes Bytes) : Prop :=
  ∀ id, entries'[RecordKind.turnout.key id]? = entries[RecordKind.turnout.key id]?

theorem Edit.KeepsTurnouts.misses {e : Edit} (h : e.KeepsTurnouts) :
    Store.Misses .turnout e.entry := by
  refine ⟨e.slot.1, e.slot.2, ?_, e.key_entry⟩
  cases e <;> first | exact h.elim | exact nofun

theorem Store.sameTurnouts_foldl {edits : List Edit} (h : ∀ e ∈ edits, e.KeepsTurnouts)
    (entries : Table Bytes Bytes) :
    SameTurnouts entries ((edits.map Edit.entry).foldl applyEntry entries) := by
  refine getElem?_foldl_applyEntry (fun e he => ?_) entries
  obtain ⟨f, hf, rfl⟩ := List.mem_map.1 he
  exact (h f hf).misses

/-! ## One turnout among some edits -/

/-- This turnout is among the edits, and no other is. -/
def Edit.PutsOnly (c : Turnout) (edits : List Edit) : Prop :=
  ∃ before after, edits = before ++ .putTurnout c :: after ∧
    (∀ e ∈ before, e.KeepsTurnouts) ∧ ∀ e ∈ after, e.KeepsTurnouts

namespace Edit.PutsOnly

variable {c : Turnout} {edits : List Edit} (h : PutsOnly c edits)

include h

theorem turnouts_foldl_apply (t : Tables) :
    (edits.foldl Tables.apply t).turnouts = t.turnouts.insert c.key c := by
  obtain ⟨before, after, rfl, hbefore, hafter⟩ := h
  rw [List.foldl_append, List.foldl_cons, Tables.turnouts_foldl_apply _ hafter,
    ← t.turnouts_foldl_apply hbefore]
  rfl

theorem sameTurnouts_foldl (entries : Table Bytes Bytes) :
    Store.SameTurnouts (Store.applyEntry entries (Edit.putTurnout c).entry)
      ((edits.map Edit.entry).foldl Store.applyEntry entries) := by
  obtain ⟨before, after, rfl, hbefore, hafter⟩ := h
  intro id
  rw [List.map_append, List.foldl_append, List.map_cons, List.foldl_cons,
    Store.sameTurnouts_foldl hafter _ id]
  have hput (entries : Table Bytes Bytes) :
      (Store.applyEntry entries (Edit.putTurnout c).entry)[RecordKind.turnout.key id]? =
        if RecordKind.turnout = .turnout ∧ c.key.storeId = id then some (encode c)
        else entries[RecordKind.turnout.key id]? :=
    Store.getElem?_applyEntry ..
  rw [hput, hput, Store.sameTurnouts_foldl hbefore entries id]

end Edit.PutsOnly

theorem Acceptance.putsOnly_edits {α : Type} {put : Reading α → Edit} (a : Acceptance α)
    (hput : (put a.reading).KeepsTurnouts) : Edit.PutsOnly a.turnout (a.edits put) := by
  refine ⟨[put a.reading, .putInvite a.invite], _, rfl, fun e he => ?_, fun e he => ?_⟩
  · rcases List.mem_cons.1 he with rfl | he
    · exact hput
    · rw [List.mem_singleton.1 he]
      trivial
  · split at he
    · rw [List.mem_singleton.1 he]
      trivial
    · exact nomatch he

namespace Oracle

theorem entries_of_commit {α : Type} {o o' : Oracle} {edits : List Edit} {result r : α}
    (h : o.commit edits result = (.ok r, o')) :
    o'.store.entries = (edits.map Edit.entry).foldl Store.applyEntry o.store.entries := by
  unfold commit at h
  split at h
  · next hnil =>
    rw [List.isEmpty_iff.1 hnil, ← (Prod.mk.inj h).2]
    rfl
  · split at h
    · exact nomatch (Prod.mk.inj h).1
    · next store hstore =>
      rw [← (Prod.mk.inj h).2]
      exact (Store.applyBatch_of_ok hstore).1

/-- An issue counts its invites under their key. -/
theorem putsOnly_issueEdits (o : Oracle) (count : Nat) (kind : MeasurementKind)
    (currency : Option String) (now blockHeight : UInt64) :
    Edit.PutsOnly ((o.turnout ⟨currency, kind⟩).recordSent
        (o.draft count kind currency now blockHeight).length now)
      (o.issueEdits count kind currency now blockHeight) := by
  refine ⟨(o.draft count kind currency now blockHeight).map .putInvite, [], ?_, fun e he => ?_,
    fun _ he => absurd he List.not_mem_nil⟩
  · rw [issueEdits]
  · obtain ⟨i, -, rfl⟩ := List.mem_map.1 he
    trivial

def Outcome.items {α : Type} (out : Outcome (List α)) : List α :=
  match out.1 with
  | .ok items => items
  | .error _ => []

def issuedIn (o : Oracle) : Event → List Invite
  | .request (.issue count kind currency now blockHeight) =>
    Outcome.items (o.issue count kind currency now blockHeight)
  | .request (.issueForTarget target kind currency now blockHeight) =>
    Outcome.items (o.issueForTarget target kind currency now blockHeight)
  | .request (.submitWater _ _) | .request (.submitRate _ _) | .request (.endorse _ _)
  | .request (.expireInvites _) | .request (.prune _) | .request (.rollUpDay _ _)
  | .request (.registerUrl _ _ _ _ _ _) | .request (.endorseUrl _ _)
  | .request (.recordUrlCheck _ _ _) | .storeTurns _ _ => []

/-- The invites that are issued in the course of some events, in the order of issue. -/
def issued (o : Oracle) : List Event → List Invite
  | [] => []
  | e :: events => o.issuedIn e ++ (o.step e).issued events

/-- What an event issues or accepts, and what it makes of the turnouts, in memory and in the store,
and of the order of issue. -/
inductive Posting (o : Oracle) (e : Event) : Prop
  | idle (hissued : o.issuedIn e = []) (haccepted : o.acceptedIn e = [])
      (hturnouts : (o.step e).tables.turnouts = o.tables.turnouts)
      (hnext : (o.step e).tables.nextSequence = o.tables.nextSequence)
      (hstored : Store.SameTurnouts o.store.entries (o.step e).store.entries)
  | issue (count : Nat) (kind : MeasurementKind) (currency : Option String)
      (now blockHeight : UInt64)
      (hissued : o.issuedIn e = o.draft count kind currency now blockHeight)
      (haccepted : o.acceptedIn e = [])
      (hinvites : (o.step e).tables.invites =
        (o.draft count kind currency now blockHeight).foldl (fun m i => m.insert i.id i)
          o.tables.invites)
      (hturnouts : (o.step e).tables.turnouts = o.tables.turnouts.insert
        ((o.turnout ⟨currency, kind⟩).recordSent
          (o.draft count kind currency now blockHeight).length now).key
        ((o.turnout ⟨currency, kind⟩).recordSent
          (o.draft count kind currency now blockHeight).length now))
      (hnext : (o.step e).tables.nextSequence =
        o.tables.nextSequence + (o.draft count kind currency now blockHeight).length)
      (hdraft : o.draft count kind currency now blockHeight ≠ [])
      (hstored : Store.SameTurnouts
        (Store.applyEntry o.store.entries
          (Edit.putTurnout ((o.turnout ⟨currency, kind⟩).recordSent
            (o.draft count kind currency now blockHeight).length now)).entry)
        (o.step e).store.entries)
  | acceptance (id : Digest) (i : Invite) (now : UInt64)
      (hissued : o.issuedIn e = []) (haccepted : o.acceptedIn e = [id])
      (hi : o.tables.invites[id]? = some i) (hopen : i.isUsed = false)
      (hused : (o.step e).tables.invites[id]? = some { i with isUsed := true })
      (hturnouts : (o.step e).tables.turnouts = o.tables.turnouts.insert
        ((o.turnout i.turnoutKey).recordCompleted now).key
        ((o.turnout i.turnoutKey).recordCompleted now))
      (hnext : (o.step e).tables.nextSequence = o.tables.nextSequence)
      (hstored : Store.SameTurnouts
        (Store.applyEntry o.store.entries
          (Edit.putTurnout ((o.turnout i.turnoutKey).recordCompleted now)).entry)
        (o.step e).store.entries)

section

variable {o : Oracle} {e : Event}

theorem posting_of_eq (hissued : o.issuedIn e = []) (haccepted : o.acceptedIn e = [])
    (hstep : o.step e = o) : o.Posting e :=
  .idle hissued haccepted (by rw [hstep]) (by rw [hstep]) fun _ => by rw [hstep]

theorem posting_issue {count : Nat} {kind : MeasurementKind} {currency : Option String}
    {now blockHeight : UInt64} (haccepted : o.acceptedIn e = [])
    (hissued : o.issuedIn e = Outcome.items (o.issue count kind currency now blockHeight))
    (hstep : o.step e = (o.issue count kind currency now blockHeight).2) : o.Posting e := by
  by_cases hdraft : (o.draft count kind currency now blockHeight).isEmpty
  · have hissue : o.issue count kind currency now blockHeight = (.ok [], o) := if_pos hdraft
    rw [hissue] at hissued hstep
    exact posting_of_eq hissued haccepted hstep
  · have hcommit := commit_cases o (o.issueEdits count kind currency now blockHeight)
      (o.draft count kind currency now blockHeight)
    have hissue : o.issue count kind currency now blockHeight = _ := if_neg hdraft
    have hputs := o.putsOnly_issueEdits count kind currency now blockHeight
    rcases hcommit with ⟨why, h⟩ | ⟨store, h⟩
    · unfold issueEdits at h
      rw [h] at hissue
      rw [hissue] at hissued hstep
      exact posting_of_eq hissued haccepted hstep
    · have hentries : store.entries = _ := entries_of_commit h
      unfold issueEdits at h
      rw [h] at hissue
      rw [hissue] at hissued hstep
      refine .issue count kind currency now blockHeight hissued haccepted ?_ ?_ ?_ ?_ ?_
      · rw [hstep]
        exact o.invites_issueEdits ..
      · rw [hstep]
        exact hputs.turnouts_foldl_apply o.tables
      · rw [hstep]
        dsimp only
        rw [Tables.nextSequence_foldl_apply]
      · exact fun hnil => hdraft (List.isEmpty_iff.2 hnil)
      · rw [hstep]
        dsimp only
        rw [hentries]
        exact hputs.sameTurnouts_foldl o.store.entries

theorem posting_submit {ω α : Type} [Quantity ω α] [LawfulQuantity ω]
    (hput : ∀ r : Reading α, (Quantity.put ω r).KeepsTurnouts) (hkeyed : o.tables.Keyed)
    {s : Submission ω} {now : UInt64} (hissued : o.issuedIn e = [])
    (haccepted : o.acceptedIn e = o.submissionAccepted s now)
    (hstep : o.step e = (o.submit s now).2) : o.Posting e := by
  rw [submissionAccepted] at haccepted
  cases hjudge : o.judge s now with
  | error why =>
    have hsubmit : o.submit s now = (.error (.refused why), o) := by rw [submit, hjudge]
    rw [hsubmit] at haccepted hstep
    exact posting_of_eq hissued haccepted hstep
  | ok a =>
    have hsubmit : o.submit s now = o.commit (a.edits (Quantity.put ω)) a.reading.id := by
      rw [submit, hjudge]
    obtain ⟨i, measured, moments, hscreen, -, rfl⟩ := judge_of_ok hjudge
    obtain ⟨hi, -, -, -, hopen, -⟩ := usableInvite_of_ok (screen_of_ok hscreen).1
    have hputs : Edit.PutsOnly (o.acceptance s now i measured moments).turnout
        ((o.acceptance s now i measured moments).edits (Quantity.put ω)) :=
      Acceptance.putsOnly_edits _ (hput _)
    rcases commit_cases o ((o.acceptance s now i measured moments).edits (Quantity.put ω))
      (o.acceptance s now i measured moments).reading.id with ⟨why, h⟩ | ⟨store, h⟩
    · rw [hsubmit, h] at haccepted hstep
      exact posting_of_eq hissued haccepted hstep
    · have hentries : store.entries = _ := entries_of_commit h
      rw [hsubmit, h] at haccepted hstep
      refine .acceptance s.inviteId i now hissued haccepted hi hopen ?_ ?_ ?_ ?_
      · rw [hstep]
        dsimp only
        rw [invites_acceptance, ← hkeyed.invites _ _ hi, Std.ExtTreeMap.getElem?_insert_self]
      · rw [hstep]
        exact hputs.turnouts_foldl_apply o.tables
      · rw [hstep]
        exact Tables.nextSequence_foldl_apply _ _
      · rw [hstep]
        dsimp only
        rw [hentries]
        exact hputs.sameTurnouts_foldl o.store.entries

theorem posting_commit {α : Type} {edits : List Edit} {result : α} (hissued : o.issuedIn e = [])
    (haccepted : o.acceptedIn e = []) (hstep : o.step e = (o.commit edits result).2)
    (h : ∀ e ∈ edits, e.KeepsTurnouts) : o.Posting e := by
  rcases commit_cases o edits result with ⟨why, hcommit⟩ | ⟨store, hcommit⟩
  · rw [hcommit] at hstep
    exact posting_of_eq hissued haccepted hstep
  · have hentries : store.entries = _ := entries_of_commit hcommit
    rw [hcommit] at hstep
    refine .idle hissued haccepted ?_ ?_ ?_
    · rw [hstep]
      exact o.tables.turnouts_foldl_apply h
    · rw [hstep]
      exact o.tables.nextSequence_foldl_apply edits
    · rw [hstep]
      dsimp only
      rw [hentries]
      exact Store.sameTurnouts_foldl h o.store.entries

theorem posting_renewal {α : Type} {out : Outcome α} (hissued : o.issuedIn e = [])
    (haccepted : o.acceptedIn e = []) (hout : o.Renewal out) (hstep : o.step e = out.2) :
    o.Posting e := by
  cases hout with
  | refused => exact posting_of_eq hissued haccepted hstep
  | committed edits result hedits =>
    refine posting_commit hissued haccepted hstep fun f hf => ?_
    cases hedits f hf <;> trivial

/-- Every event does one of these. -/
theorem posting (hkeyed : o.tables.Keyed) (e : Event) : o.Posting e := by
  cases e with
  | storeTurns => exact .idle rfl rfl rfl rfl fun _ => rfl
  | request r =>
    cases r with
    | issue => exact posting_issue rfl rfl rfl
    | issueForTarget target kind currency now blockHeight =>
      by_cases hready : o.isReady kind currency blockHeight
      · have hissue : o.issueForTarget target kind currency now blockHeight =
            o.issue (o.targetCount target kind currency) kind currency now blockHeight :=
          if_pos hready
        exact posting_issue rfl (congrArg Outcome.items hissue) (congrArg Prod.snd hissue)
      · have hissue : o.issueForTarget target kind currency now blockHeight = (.ok [], o) :=
          if_neg hready
        have hstep : o.step (.request (.issueForTarget target kind currency now blockHeight)) = o :=
          congrArg Prod.snd hissue
        exact posting_of_eq (congrArg Outcome.items hissue) rfl hstep
    | submitWater s =>
      have hput (r : Reading WaterPrice) : (Quantity.put WaterOffer r).KeepsTurnouts := trivial
      exact posting_submit hput hkeyed rfl rfl rfl
    | submitRate s =>
      have hput (r : Reading ExchangeRate) : (Quantity.put ExchangeRate r).KeepsTurnouts := trivial
      exact posting_submit hput hkeyed rfl rfl rfl
    | expireInvites =>
      refine posting_commit rfl rfl rfl fun f hf => ?_
      obtain ⟨i, -, rfl⟩ := List.mem_map.1 hf
      trivial
    | prune cutoff =>
      obtain ⟨edits, hdrops, heq⟩ := o.exists_prune_eq_commit cutoff
      refine posting_commit rfl rfl (congrArg Prod.snd heq) fun f hf => ?_
      have hdrop := hdrops f hf
      cases f <;> trivial
    | endorse => exact posting_renewal rfl rfl (renewal_endorse ..) rfl
    | rollUpDay => exact posting_renewal rfl rfl (clerical_rollUpDay ..).renewal rfl
    | registerUrl => exact posting_renewal rfl rfl (clerical_registerUrl ..).renewal rfl
    | endorseUrl => exact posting_renewal rfl rfl (clerical_endorseUrl ..).renewal rfl
    | recordUrlCheck => exact posting_renewal rfl rfl (clerical_recordUrlCheck ..).renewal rfl

/-- The order of issue counts the issued invites. -/
theorem nextSequence_step (hkeyed : o.tables.Keyed) (e : Event) :
    (o.step e).tables.nextSequence = o.tables.nextSequence + (o.issuedIn e).length := by
  cases posting hkeyed e with
  | idle hissued _ _ hnext => rw [hissued, hnext, List.length_nil, Nat.add_zero]
  | issue count kind currency now blockHeight hissued _ _ _ hnext => rw [hissued, hnext]
  | acceptance id i now hissued _ _ _ _ _ hnext =>
    rw [hissued, hnext, List.length_nil, Nat.add_zero]

end

end Oracle

end WaterPeg
