import WaterPeg.Proofs.Oracle.Submissions

/-!
Runs of the oracle: requests, and turns for the worse or better of its store. Every request makes
edits of its own sort, in memory and in the store alike.
-/
namespace WaterPeg

theorem Store.applyBatch_of_ok {s s' : Store} {batch : Batch} (h : s.applyBatch batch = .ok s') :
    s'.entries = batch.foldl applyEntry s.entries ∧ s'.readsFail = s.readsFail := by
  unfold applyBatch mutate at h
  split at h
  · obtain rfl := Except.ok.inj h
    exact ⟨rfl, rfl⟩
  · obtain rfl := Except.ok.inj h
    exact ⟨rfl, rfl⟩
  · exact nomatch h

namespace Oracle

/-- Something that befalls the oracle: a request, or a change of how many writes its store still
takes and of whether it can be read. -/
inductive Event
  | request (r : Request)
  | storeTurns (writesLeft : Option Nat) (readsFail : Bool)

def step (o : Oracle) : Event → Oracle
  | .request r => o.after r
  | .storeTurns writesLeft readsFail => { o with store := { o.store with writesLeft, readsFail } }

def run (o : Oracle) (events : List Event) : Oracle := events.foldl step o

theorem sameSetup_step (o : Oracle) (e : Event) : o.SameSetup (o.step e) := by
  cases e with
  | request r => exact sameSetup_after o r
  | storeTurns => exact ⟨rfl, rfl, rfl⟩

/-- What every edit keeps of the tables and the entries of the store, all edits together keep. -/
theorem foldl_edits_invariant {P : Tables → Table Bytes Bytes → Prop} {edits : List Edit}
    (hedits : ∀ e ∈ edits, ∀ t entries, P t entries →
      P (t.apply e) (Store.applyEntry entries e.entry))
    {t : Tables} {entries : Table Bytes Bytes} (h : P t entries) :
    P (edits.foldl Tables.apply t) ((edits.map Edit.entry).foldl Store.applyEntry entries) := by
  induction edits generalizing t entries with
  | nil => exact h
  | cons e edits ih =>
    have he := hedits e List.mem_cons_self t entries h
    exact ih (fun f hf => hedits f (List.mem_cons_of_mem e hf)) he

theorem commit_invariant {P : Tables → Table Bytes Bytes → Prop} {α : Type} {o : Oracle}
    {edits : List Edit} (result : α) (h : P o.tables o.store.entries)
    (hedits : ∀ e ∈ edits, ∀ t entries, P t entries →
      P (t.apply e) (Store.applyEntry entries e.entry)) :
    P (o.commit edits result).2.tables (o.commit edits result).2.store.entries := by
  unfold commit
  split
  · exact h
  · split
    · exact h
    · next store hstore =>
      rw [(Store.applyBatch_of_ok hstore).1]
      exact foldl_edits_invariant hedits h

/-- A prune does nothing but take records away. -/
theorem exists_prune_eq_commit (o : Oracle) (cutoff : UInt64) :
    ∃ edits, (∀ e ∈ edits, e.Drops) ∧ o.prune cutoff = o.commit edits edits.length := by
  refine ⟨_, fun e he => ?_, rfl⟩
  rcases List.mem_append.1 he with he | he
  · rcases List.mem_append.1 he with he | he
    · obtain ⟨r, -, rfl⟩ := List.mem_map.1 he
      trivial
    · obtain ⟨r, -, rfl⟩ := List.mem_map.1 he
      trivial
  · obtain ⟨i, -, rfl⟩ := List.mem_map.1 he
    trivial

theorem thinned_prune (o : Oracle) (cutoff : UInt64) :
    o.tables.Thinned (o.prune cutoff).2.tables := by
  obtain ⟨edits, hdrops, heq⟩ := o.exists_prune_eq_commit cutoff
  rw [heq]
  rcases o.tables_commit edits edits.length with h | h
  · rw [h]
    exact .refl _
  · rw [h]
    exact (Tables.Thinned.refl _).foldl_apply hdrops

/-! ## Issues -/

def issueEdits (o : Oracle) (count : Nat) (kind : MeasurementKind) (currency : Option String)
    (now blockHeight : UInt64) : List Edit :=
  (o.draft count kind currency now blockHeight).map .putInvite ++
    [.putTurnout ((o.turnout ⟨currency, kind⟩).recordSent
      (o.draft count kind currency now blockHeight).length now)]

theorem mem_issueEdits {o : Oracle} {count : Nat} {kind : MeasurementKind}
    {currency : Option String} {now blockHeight : UInt64} {e : Edit}
    (h : e ∈ o.issueEdits count kind currency now blockHeight) :
    (∃ i ∈ o.draft count kind currency now blockHeight, e = .putInvite i) ∨
      e = .putTurnout ((o.turnout ⟨currency, kind⟩).recordSent
        (o.draft count kind currency now blockHeight).length now) := by
  rcases List.mem_append.1 h with h | h
  · obtain ⟨i, hi, rfl⟩ := List.mem_map.1 h
    exact Or.inl ⟨i, hi, rfl⟩
  · exact Or.inr (List.mem_singleton.1 h)

/-- An issue changes nothing, or commits its edits and counts its invites. -/
theorem issue_cases (o : Oracle) (count : Nat) (kind : MeasurementKind) (currency : Option String)
    (now blockHeight : UInt64) :
    (o.issue count kind currency now blockHeight).2 = o ∨
      ∃ o', o.commit (o.issueEdits count kind currency now blockHeight)
          (o.draft count kind currency now blockHeight) =
            (.ok (o.draft count kind currency now blockHeight), o') ∧
        (o.issue count kind currency now blockHeight).2 =
          { o' with
            tables :=
              { o'.tables with
                nextSequence := o'.tables.nextSequence +
                  (o.draft count kind currency now blockHeight).length } } := by
  unfold issue
  dsimp only
  split
  · exact Or.inl rfl
  · have hcommit := commit_cases o (o.issueEdits count kind currency now blockHeight)
      (o.draft count kind currency now blockHeight)
    unfold issueEdits at hcommit ⊢
    rcases hcommit with ⟨e, h⟩ | ⟨store, h⟩
    · rw [h]
      exact Or.inl rfl
    · rw [h]
      exact Or.inr ⟨_, rfl, rfl⟩

theorem tables_issue (o : Oracle) (count : Nat) (kind : MeasurementKind) (currency : Option String)
    (now blockHeight : UInt64) :
    (o.issue count kind currency now blockHeight).2.tables = o.tables ∨
      (o.issue count kind currency now blockHeight).2.tables =
        { (o.issueEdits count kind currency now blockHeight).foldl Tables.apply o.tables with
          nextSequence := o.tables.nextSequence +
            (o.draft count kind currency now blockHeight).length } := by
  rcases o.issue_cases count kind currency now blockHeight with h | ⟨o', hcommit, h⟩
  · exact Or.inl (by rw [h])
  · right
    rcases commit_cases o (o.issueEdits count kind currency now blockHeight)
      (o.draft count kind currency now blockHeight) with ⟨e, he⟩ | ⟨store, hstore⟩
    · exact nomatch he.symm.trans hcommit
    · obtain ⟨-, rfl⟩ := Prod.mk.inj (hstore.symm.trans hcommit)
      rw [h]
      dsimp only
      rw [Tables.nextSequence_foldl_apply]

def lapsed (o : Oracle) (now : UInt64) : List Invite :=
  o.tables.invites.values.filter fun i => !i.isUsed && !i.isExpired && i.expiresAt ≤ now

theorem issueForTarget_cases (o : Oracle) (target : UInt64) (kind : MeasurementKind)
    (currency : Option String) (now blockHeight : UInt64) :
    (o.issueForTarget target kind currency now blockHeight).2 = o ∨
      ∃ count, o.issueForTarget target kind currency now blockHeight =
        o.issue count kind currency now blockHeight := by
  unfold issueForTarget
  split
  · exact Or.inr ⟨_, rfl⟩
  · exact Or.inl rfl

/-! ## What all events keep -/

inductive Edited (t : Tables) : Tables → Prop
  | mk (edits : List Edit) (n : Nat) (hn : t.nextSequence ≤ n) :
    Edited t { edits.foldl Tables.apply t with nextSequence := n }

theorem edited_foldl (t : Tables) (edits : List Edit) : Edited t (edits.foldl Tables.apply t) := by
  have h := Edited.mk edits t.nextSequence (Nat.le_refl _)
  rwa [← t.nextSequence_foldl_apply edits] at h

theorem edited_commit {α : Type} (o : Oracle) (edits : List Edit) (result : α) :
    Edited o.tables (o.commit edits result).2.tables := by
  rcases o.tables_commit edits result with h | h
  · rw [h]
    exact edited_foldl o.tables []
  · rw [h]
    exact edited_foldl o.tables edits

theorem Concludes.edited {o : Oracle} {α : Type} {out : Outcome α} (h : o.Concludes out) :
    Edited o.tables out.2.tables := by
  cases h with
  | refused => exact edited_foldl o.tables []
  | committed edits result => exact o.edited_commit edits result

theorem edited_issue (o : Oracle) (count : Nat) (kind : MeasurementKind) (currency : Option String)
    (now blockHeight : UInt64) :
    Edited o.tables (o.issue count kind currency now blockHeight).2.tables := by
  rcases o.tables_issue count kind currency now blockHeight with h | h
  · rw [h]
    exact edited_foldl o.tables []
  · rw [h]
    exact .mk _ _ (Nat.le_add_right _ _)

theorem edited_step (o : Oracle) (e : Event) : Edited o.tables (o.step e).tables := by
  cases e with
  | storeTurns => exact edited_foldl o.tables []
  | request r =>
    cases r with
    | issue => exact o.edited_issue ..
    | issueForTarget target kind currency now blockHeight =>
      change Edited _ (o.issueForTarget target kind currency now blockHeight).2.tables
      rcases o.issueForTarget_cases target kind currency now blockHeight with h | ⟨count, h⟩
      · rw [h]
        exact edited_foldl o.tables []
      · rw [h]
        exact o.edited_issue ..
    | submitWater => exact (concludes_submit ..).edited
    | submitRate => exact (concludes_submit ..).edited
    | endorse => exact (concludes_endorse ..).edited
    | expireInvites => exact o.edited_commit _ _
    | prune => exact o.edited_commit _ _
    | rollUpDay => exact (clerical_rollUpDay ..).concludes.edited
    | registerUrl => exact (clerical_registerUrl ..).concludes.edited
    | endorseUrl => exact (clerical_endorseUrl ..).concludes.edited
    | recordUrlCheck => exact (clerical_recordUrlCheck ..).concludes.edited

section

variable {P : Tables → Table Bytes Bytes → Prop}
  (hedit : ∀ (e : Edit) t entries, P t entries → P (t.apply e) (Store.applyEntry entries e.entry))
  {o : Oracle} (h : P o.tables o.store.entries)

include hedit h

theorem Concludes.invariant {α : Type} {out : Outcome α} (hout : o.Concludes out) :
    P out.2.tables out.2.store.entries := by
  cases hout with
  | refused => exact h
  | committed edits result => exact commit_invariant result h fun e _ => hedit e

variable (hcount : ∀ (t : Tables) entries n, P t entries → P { t with nextSequence := n } entries)

include hcount

theorem issue_invariant (count : Nat) (kind : MeasurementKind) (currency : Option String)
    (now blockHeight : UInt64) :
    P (o.issue count kind currency now blockHeight).2.tables
      (o.issue count kind currency now blockHeight).2.store.entries := by
  rcases o.issue_cases count kind currency now blockHeight with heq | ⟨o', hcommit, heq⟩
  · rw [heq]
    exact h
  · have ho' := commit_invariant (o.draft count kind currency now blockHeight) h
      fun e (_ : e ∈ o.issueEdits count kind currency now blockHeight) => hedit e
    rw [hcommit] at ho'
    rw [heq]
    exact hcount _ _ _ ho'

/-- What every edit keeps of the tables and the entries of the store, and counting on too, every
event keeps. -/
theorem step_invariant (e : Event) : P (o.step e).tables (o.step e).store.entries := by
  cases e with
  | storeTurns => exact h
  | request r =>
    cases r with
    | issue => exact issue_invariant hedit h hcount ..
    | issueForTarget target kind currency now blockHeight =>
      change P (o.issueForTarget target kind currency now blockHeight).2.tables
        (o.issueForTarget target kind currency now blockHeight).2.store.entries
      rcases o.issueForTarget_cases target kind currency now blockHeight with heq | ⟨count, heq⟩
      · rw [heq]
        exact h
      · rw [heq]
        exact issue_invariant hedit h hcount ..
    | submitWater => exact (concludes_submit ..).invariant hedit h
    | submitRate => exact (concludes_submit ..).invariant hedit h
    | endorse => exact (concludes_endorse ..).invariant hedit h
    | expireInvites => exact commit_invariant _ h fun e _ => hedit e
    | prune => exact commit_invariant _ h fun e _ => hedit e
    | rollUpDay => exact (clerical_rollUpDay ..).concludes.invariant hedit h
    | registerUrl => exact (clerical_registerUrl ..).concludes.invariant hedit h
    | endorseUrl => exact (clerical_endorseUrl ..).concludes.invariant hedit h
    | recordUrlCheck => exact (clerical_recordUrlCheck ..).concludes.invariant hedit h

end

theorem Edited.keyed {t t' : Tables} (h : Edited t t') (hkeyed : t.Keyed) : t'.Keyed := by
  obtain ⟨edits, n⟩ := h
  obtain ⟨hwater, hrates, hinvites⟩ := hkeyed.foldl_apply edits
  exact ⟨hwater, hrates, hinvites⟩

theorem Edited.nextSequence_le {t t' : Tables} (h : Edited t t') :
    t.nextSequence ≤ t'.nextSequence := by
  obtain ⟨edits, n, hn⟩ := h
  exact hn

/-! ## What edits keep of the store -/

section

variable {P : Store → Prop}

def EditsKeep (P : Store → Prop) : Prop :=
  ∀ (edits : List Edit) (s s' : Store), P s → s.applyBatch (edits.map Edit.entry) = .ok s' → P s'

theorem editsKeep_entries {Q : Table Bytes Bytes → Prop}
    (hQ : ∀ (e : Edit) entries, Q entries → Q (Store.applyEntry entries e.entry)) :
    EditsKeep fun s => Q s.entries := by
  intro edits s s' h happly
  rw [(Store.applyBatch_of_ok happly).1]
  exact foldl_edits_invariant (P := fun _ entries => Q entries)
    (fun e _ _ entries => hQ e entries) (t := .empty) h

variable (hP : EditsKeep P) {o : Oracle} (h : P o.store)

include hP h

theorem store_commit {α : Type} (edits : List Edit) (result : α) :
    P (o.commit edits result).2.store := by
  unfold commit
  split
  · exact h
  · split
    · exact h
    · next s hs => exact hP edits o.store s h hs

theorem Concludes.store {α : Type} {out : Outcome α} (hout : o.Concludes out) : P out.2.store := by
  cases hout with
  | refused => exact h
  | committed edits result => exact store_commit hP h edits result

theorem store_issue (count : Nat) (kind : MeasurementKind) (currency : Option String)
    (now blockHeight : UInt64) : P (o.issue count kind currency now blockHeight).2.store := by
  rcases o.issue_cases count kind currency now blockHeight with heq | ⟨o', hcommit, heq⟩
  · rw [heq]
    exact h
  · have ho' := store_commit hP h (o.issueEdits count kind currency now blockHeight)
      (o.draft count kind currency now blockHeight)
    rw [hcommit] at ho'
    rw [heq]
    exact ho'

theorem store_issueForTarget (target : UInt64) (kind : MeasurementKind)
    (currency : Option String) (now blockHeight : UInt64) :
    P (o.issueForTarget target kind currency now blockHeight).2.store := by
  rcases o.issueForTarget_cases target kind currency now blockHeight with heq | ⟨count, heq⟩
  · rw [heq]
    exact h
  · rw [heq]
    exact store_issue hP h ..

theorem store_after (r : Request) : P (o.after r).store := by
  cases r with
  | issue => exact store_issue hP h ..
  | issueForTarget => exact store_issueForTarget hP h ..
  | submitWater => exact (concludes_submit ..).store hP h
  | submitRate => exact (concludes_submit ..).store hP h
  | endorse => exact (concludes_endorse ..).store hP h
  | expireInvites => exact store_commit hP h ..
  | prune => exact store_commit hP h ..
  | rollUpDay => exact (clerical_rollUpDay ..).concludes.store hP h
  | registerUrl => exact (clerical_registerUrl ..).concludes.store hP h
  | endorseUrl => exact (clerical_endorseUrl ..).concludes.store hP h
  | recordUrlCheck => exact (clerical_recordUrlCheck ..).concludes.store hP h

end

/-! ## Requests that leave the invites alone -/

/-- An edit of a rollup or a page, or of an observation that keeps its id and its invite. -/
inductive Renews (t : Tables) : Edit → Prop
  | rollup (r : Rollup) : Renews t (.putRollup r)
  | url (u : SourceUrl) : Renews t (.putUrl u)
  | water {id : Digest} {r r' : Reading WaterPrice} (h : t.water[id]? = some r)
    (hid : r'.id = r.id) (hinvite : r'.inviteId = r.inviteId) : Renews t (.putWater r')
  | rate {id : Digest} {r r' : Reading ExchangeRate} (h : t.rates[id]? = some r)
    (hid : r'.id = r.id) (hinvite : r'.inviteId = r.inviteId) : Renews t (.putRate r')

/-- How a request ends that leaves the invites alone: refused, though not as a duplicate of an
observation, or in a commit of such edits. -/
inductive Renewal (o : Oracle) {α : Type} : Outcome α → Prop
  | refused {why : OracleError} (h : why ≠ .refused .duplicate) : o.Renewal (.error why, o)
  | committed (edits : List Edit) (result : α) (h : ∀ e ∈ edits, Renews o.tables e) :
    o.Renewal (o.commit edits result)

theorem Renewal.single {α : Type} {o : Oracle} {e : Edit} (h : Renews o.tables e) (result : α) :
    o.Renewal (o.commit [e] result) := by
  refine .committed [e] result fun f hf => ?_
  rw [List.mem_singleton.1 hf]
  exact h

theorem ne_duplicate_of_endorse {α : Type} {r : Reading α} {validator : String}
    {minValidators : UInt64} {why : Refusal} (h : r.endorse validator minValidators = .error why) :
    OracleError.refused why ≠ .refused .duplicate := by
  unfold Reading.endorse at h
  split at h
  · obtain rfl := Except.error.inj h
    exact nofun
  · split at h
    · obtain rfl := Except.error.inj h
      exact nofun
    · exact nomatch h

/-- An endorsement adds a peer who is neither the submitter nor behind the observation already. -/
theorem endorse_of_ok {α : Type} {r r' : Reading α} {validator : String} {minValidators : UInt64}
    (h : r.endorse validator minValidators = .ok r') :
    validator ≠ r.submitter ∧ validator ∉ r.validators ∧
      r' = { r with
        validators := r.validators ++ [validator]
        isValidated :=
          r.isValidated || minValidators.toNat ≤ (r.validators ++ [validator]).length
        confidence := UInt64.ofNat (min ((r.validators ++ [validator]).length * ppm / 10) ppm) } := by
  unfold Reading.endorse at h
  split at h
  · exact nomatch h
  · next howner =>
    split at h
    · exact nomatch h
    · next hmem =>
      refine ⟨howner, fun hv => hmem ?_, (Except.ok.inj h).symm⟩
      exact List.contains_iff_mem.2 hv

theorem id_of_endorse {α : Type} {r r' : Reading α} {validator : String} {minValidators : UInt64}
    (h : r.endorse validator minValidators = .ok r') : r'.id = r.id ∧ r'.inviteId = r.inviteId := by
  obtain ⟨-, -, rfl⟩ := endorse_of_ok h
  exact ⟨rfl, rfl⟩

theorem renewal_endorse (o : Oracle) (id : Digest) (validator : String) :
    o.Renewal (o.endorse id validator) := by
  unfold endorse
  split
  · next r hr =>
    split
    · next hwhy => exact .refused (ne_duplicate_of_endorse hwhy)
    · next r' hendorse =>
      obtain ⟨hid, hinvite⟩ := id_of_endorse hendorse
      exact .single (.water hr hid hinvite) _
  · split
    · next r hr =>
      split
      · next hwhy => exact .refused (ne_duplicate_of_endorse hwhy)
      · next r' hendorse =>
        obtain ⟨hid, hinvite⟩ := id_of_endorse hendorse
        exact .single (.rate hr hid hinvite) _
    · exact .refused nofun

theorem Clerical.renewal {α : Type} {o : Oracle} {out : Outcome α} (h : o.Clerical out) :
    o.Renewal out := by
  cases h with
  | refused hwhy => exact .refused hwhy
  | committed edits result hedits =>
    refine .committed edits result fun e he => ?_
    have hclerical := hedits e he
    cases e with
    | putRollup r => exact .rollup r
    | putUrl u => exact .url u
    | _ => exact hclerical.elim

/-! ## A sample run -/

def fresh (directory : Directory) (config : Config) : Oracle :=
  ⟨.empty, directory, config.measurement, config.targets, .empty⟩

def adaAlone : Directory := ⟨fun _ => ["ada"], fun _ => [], [], fun _ => 0⟩

def adasPrice : Submission WaterOffer where
  submitter := "ada"
  offer := ⟨"OUSD", 1500000, .liter⟩
  evidence := "https://shop.example/water"
  source := .userOnline
  timestamp := 1750000000
  blockHeight := 1
  inviteId := Invite.idOf "ada" 1750000000 0

/-- Ada is invited twice. Her answer to the first invite finds the store full, and is sent again. -/
def adasRun : List Event :=
  [.request (.issue 2 .waterPrice (some "OUSD") 1750000000 1),
    .storeTurns (some 0) false,
    .request (.submitWater adasPrice 1750000060),
    .storeTurns none false,
    .request (.submitWater adasPrice 1750000060)]

end Oracle

end WaterPeg
