import WaterPeg.Proofs.Json.Records
import WaterPeg.Proofs.Oracle.Runs
import WaterPeg.Proofs.Store.Shelves

/-!
The store of the oracle mirrors its tables: whatever the oracle was asked and however its store
failed, loading the store gives back the tables.
-/
namespace WaterPeg

/-! ## Ids in the store -/

/-- A list is cut in one way only at the last occurrence of an item. -/
theorem append_cons_inj_of_notMem_right {α : Type} {a : α} {xs xs' ys ys' : List α} (hys : a ∉ ys)
    (hys' : a ∉ ys') (h : xs ++ a :: ys = xs' ++ a :: ys') : xs = xs' ∧ ys = ys' := by
  rcases List.append_eq_append_iff.1 h with ⟨zs, hxs, hzs⟩ | ⟨zs, hxs, hzs⟩
  · cases zs with
    | nil => exact ⟨by simpa using hxs.symm, (List.cons.inj hzs).2⟩
    | cons z zs =>
      rw [(List.cons.inj hzs).2] at hys
      simp at hys
  · cases zs with
    | nil => exact ⟨by simpa using hxs, (List.cons.inj hzs).2.symm⟩
    | cons z zs =>
      rw [(List.cons.inj hzs).2] at hys'
      simp at hys'

theorem Bytes.ofString_append (s t : String) : ofString (s ++ t) = ofString s ++ ofString t := by
  simp [ofString]

theorem Date.zero_notMem_text (d : Date) : '\x00' ∉ d.text.toList := by
  have hdigits : ∀ width n, '\x00' ∉ digits width n :=
    fun width n h => absurd (isDigit_of_mem_digits h) (by decide)
  have hyear : '\x00' ∉ yearText d.year := by
    unfold yearText
    split
    · split
      · exact hdigits 4 _
      · simp [hdigits]
    · simp [hdigits]
  simp [text, hyear, hdigits]

/-- The text of a date has no zero byte, so the last one ends the currency. -/
theorem DayKey.storeId_injective {a b : DayKey} (h : a.storeId = b.storeId) : a = b := by
  have hjoin : ∀ k : DayKey, k.storeId = Bytes.ofString (k.currency ++ "\x00" ++ k.date.text) := by
    intro k
    rw [Bytes.ofString_append, Bytes.ofString_append, List.append_assoc]
    rfl
  rw [hjoin, hjoin] at h
  have hchars := congrArg String.toList (Bytes.ofString_injective h)
  simp only [String.toList_append, List.append_assoc] at hchars
  obtain ⟨hcurrency, hdate⟩ := append_cons_inj_of_notMem_right a.date.zero_notMem_text
    b.date.zero_notMem_text hchars
  cases a; cases b
  simp only [DayKey.mk.injEq]
  exact ⟨String.toList_injective hcurrency, Date.text_injective (String.toList_injective hdate)⟩

/-- Different keys share an id in the store if one is for no currency and the other for the empty
code, and in no other case. -/
theorem TurnoutKey.shares_iff {a b : TurnoutKey} : a ≠ b ∧ a.storeId = b.storeId ↔
    a.kind = b.kind ∧
      (a.currency = none ∧ b.currency = some "" ∨ a.currency = some "" ∧ b.currency = none) := by
  obtain ⟨ca, ka⟩ := a
  obtain ⟨cb, kb⟩ := b
  constructor
  · rintro ⟨hne, hid⟩
    obtain ⟨hkind, hcode⟩ := List.cons.inj hid
    obtain rfl : ka = kb := MeasurementKind.tag_injective hkind
    have hcode := Bytes.ofString_injective hcode
    refine ⟨rfl, ?_⟩
    cases ca <;> cases cb <;> simp_all
  · rintro ⟨rfl, hcodes⟩
    rcases hcodes with ⟨rfl, rfl⟩ | ⟨rfl, rfl⟩
    · exact ⟨by simp, rfl⟩
    · exact ⟨by simp, rfl⟩

theorem TurnoutKey.storeId_inj {a b : TurnoutKey} (ha : a.currency ≠ some "")
    (hb : b.currency ≠ some "") (h : a.storeId = b.storeId) : a = b := by
  refine Decidable.byContradiction fun hne => ?_
  rcases (shares_iff.1 ⟨hne, h⟩).2 with ⟨-, hcode⟩ | ⟨hcode, -⟩
  · exact hb hcode
  · exact ha hcode

/-! ## The tables of the oracle -/

def Shelf.ofDigest {ρ : Type} (kind : RecordKind) (key : ρ → Digest) (Proper : ρ → Prop) :
    Shelf ρ Digest ρ where
  kind
  key
  value := id
  storeId := Digest.bytes
  Proper

theorem Shelf.apart_ofDigest {ρ : Type} {kind : RecordKind} {key : ρ → Digest}
    {Proper : ρ → Prop} : (ofDigest kind key Proper).Apart :=
  fun _ _ => Digest.ext

namespace Tables

def waterShelf : Shelf (Reading WaterPrice) Digest (Reading WaterPrice) :=
  .ofDigest .waterPrice Reading.id fun _ => True

def ratesShelf : Shelf (Reading ExchangeRate) Digest (Reading ExchangeRate) :=
  .ofDigest .exchangeRate Reading.id fun _ => True

def invitesShelf (For : Option String → Prop) : Shelf Invite Digest Invite :=
  .ofDigest .invite Invite.id fun i => For i.currency

def turnoutsShelf (For : Option String → Prop) : Shelf Turnout TurnoutKey Turnout where
  kind := .turnout
  key := Turnout.key
  value := id
  storeId := TurnoutKey.storeId
  Proper t := For t.key.currency

def rollupsShelf : Shelf Rollup DayKey Rollup where
  kind := .rollup
  key := Rollup.key
  value := id
  storeId := DayKey.storeId
  Proper _ := True

def urlsShelf : Shelf SourceUrl Digest SourceUrl := .ofDigest .sourceUrl SourceUrl.id fun _ => True

def firstSeenShelf : Shelf (String × UInt64) String UInt64 where
  kind := .firstSeen
  key := Prod.fst
  value := Prod.snd
  storeId := Bytes.ofString
  Proper _ := True

/-- The entries of the oracle can be loaded, and its tables are what they are loaded as, though not
the turnouts where keys share an id. Invites and turnouts are for such currencies only. -/
structure Mirrored (For : Option String → Prop) (t : Tables) (entries : Table Bytes Bytes) :
    Prop where
  water : waterShelf.Mirrors t.water entries
  rates : ratesShelf.Mirrors t.rates entries
  invites : (invitesShelf For).Mirrors t.invites entries
  turnouts : (turnoutsShelf For).Mirrors t.turnouts entries
  rollups : rollupsShelf.Mirrors t.rollups entries
  urls : urlsShelf.Mirrors t.urls entries
  firstSeen : firstSeenShelf.Mirrors t.firstSeen entries

variable {For : Option String → Prop}

theorem mirrored_empty : Mirrored For empty ∅ :=
  ⟨Shelf.mirrors_empty, Shelf.mirrors_empty, Shelf.mirrors_empty, Shelf.mirrors_empty,
    Shelf.mirrors_empty, Shelf.mirrors_empty, Shelf.mirrors_empty⟩

end Tables

/-- The invite or the turnout that the edit puts is for such a currency. -/
def Edit.PutsFor (For : Option String → Prop) : Edit → Prop
  | .putInvite i => For i.currency
  | .putTurnout t => For t.key.currency
  | .putWater _ | .putRate _ | .putRollup _ | .putUrl _ | .putFirstSeen _ _ | .dropWater _
  | .dropRate _ | .dropInvite _ => True

theorem Edit.putsFor_any (e : Edit) : e.PutsFor fun _ => True := by
  cases e <;> trivial

def AboutStabilizer (batch : Batch) : Prop :=
  ∀ e ∈ batch, ∃ (kind : RecordKind) (id : Bytes), kind ∈ [RecordKind.standing, .payout, .totals] ∧
    e.1 = kind.key id

def Tables.kinds : List RecordKind :=
  [.waterPrice, .exchangeRate, .invite, .turnout, .rollup, .sourceUrl, .firstSeen]

theorem AboutStabilizer.misses {batch : Batch} (h : AboutStabilizer batch) {kind : RecordKind}
    (hkind : kind ∈ Tables.kinds) : ∀ e ∈ batch, Store.Misses kind e := by
  have hapart : ∀ kind ∈ Tables.kinds, ∀ other ∈ [RecordKind.standing, .payout, .totals],
    other ≠ kind := by decide
  intro e he
  obtain ⟨other, id, hother, hkey⟩ := h e he
  exact ⟨other, id, hapart kind hkind other hother, hkey⟩

/-! ## Loading the tables -/

structure Tables.Loaded (s : Store) (t : Tables) : Prop where
  water : ∃ rs, s.records (Reading WaterPrice) .waterPrice = .ok rs ∧ t.water = index Reading.id rs
  rates : ∃ rs, s.records (Reading ExchangeRate) .exchangeRate = .ok rs ∧
    t.rates = index Reading.id rs
  invites : ∃ rs, s.records Invite .invite = .ok rs ∧ t.invites = index Invite.id rs
  turnouts : ∃ rs, s.records Turnout .turnout = .ok rs ∧ t.turnouts = index Turnout.key rs
  rollups : ∃ rs, s.records Rollup .rollup = .ok rs ∧ t.rollups = index Rollup.key rs
  urls : ∃ rs, s.records SourceUrl .sourceUrl = .ok rs ∧ t.urls = index SourceUrl.id rs
  firstSeen : ∃ rs, s.records (String × UInt64) .firstSeen = .ok rs ∧
    t.firstSeen = rs.foldl (fun t e => t.insert e.1 e.2) ∅
  nextSequence : t.nextSequence = sequenceAfter t.invites

theorem Tables.loaded_of_load {s : Store} {t : Tables} (h : load s = .ok t) : Loaded s t := by
  obtain ⟨water, hwater, h⟩ := bind_eq_ok_iff.1 h
  obtain ⟨rates, hrates, h⟩ := bind_eq_ok_iff.1 h
  obtain ⟨invites, hinvites, h⟩ := bind_eq_ok_iff.1 h
  obtain ⟨turnouts, hturnouts, h⟩ := bind_eq_ok_iff.1 h
  obtain ⟨rollups, hrollups, h⟩ := bind_eq_ok_iff.1 h
  obtain ⟨urls, hurls, h⟩ := bind_eq_ok_iff.1 h
  obtain ⟨seen, hseen, h⟩ := bind_eq_ok_iff.1 h
  obtain rfl := Except.ok.inj h
  exact ⟨⟨water, hwater, rfl⟩, ⟨rates, hrates, rfl⟩, ⟨invites, hinvites, rfl⟩,
    ⟨turnouts, hturnouts, rfl⟩, ⟨rollups, hrollups, rfl⟩, ⟨urls, hurls, rfl⟩,
    ⟨seen, hseen, rfl⟩, rfl⟩

/-- What another oracle is sure to find of some tables: everything but the turnouts. It counts on
after the latest invite. -/
structure Tables.Restores (t t' : Tables) : Prop where
  water : t'.water = t.water
  rates : t'.rates = t.rates
  invites : t'.invites = t.invites
  rollups : t'.rollups = t.rollups
  urls : t'.urls = t.urls
  firstSeen : t'.firstSeen = t.firstSeen
  nextSequence : t'.nextSequence = sequenceAfter t.invites

namespace Tables.Mirrored

variable {For : Option String → Prop} {t t' : Tables} {entries : Table Bytes Bytes} {s : Store}

/-- An edit changes a table and the store alike. -/
theorem apply (h : t.Mirrored For entries) {e : Edit} (he : e.PutsFor For) :
    (t.apply e).Mirrored For (Store.applyEntry entries e.entry) := by
  obtain ⟨hwater, hrates, hinvites, hturnouts, hrollups, hurls, hseen⟩ := h
  -- The kind of the edit has its own step; the entry stands under none of the other kinds.
  cases e with
  | putWater r =>
    refine ⟨hwater.put (r := r) trivial, ?_, ?_, ?_, ?_, ?_, ?_⟩ <;>
      exact .other ‹_› (ne_of_beq_false rfl) _ _
  | putRate r =>
    refine ⟨?_, hrates.put (r := r) trivial, ?_, ?_, ?_, ?_, ?_⟩ <;>
      exact .other ‹_› (ne_of_beq_false rfl) _ _
  | putInvite i =>
    refine ⟨?_, ?_, hinvites.put (r := i) he, ?_, ?_, ?_, ?_⟩ <;>
      exact .other ‹_› (ne_of_beq_false rfl) _ _
  | putTurnout t =>
    refine ⟨?_, ?_, ?_, hturnouts.put (r := t) he, ?_, ?_, ?_⟩ <;>
      exact .other ‹_› (ne_of_beq_false rfl) _ _
  | putRollup r =>
    refine ⟨?_, ?_, ?_, ?_, hrollups.put (r := r) trivial, ?_, ?_⟩ <;>
      exact .other ‹_› (ne_of_beq_false rfl) _ _
  | putUrl u =>
    refine ⟨?_, ?_, ?_, ?_, ?_, hurls.put (r := u) trivial, ?_⟩ <;>
      exact .other ‹_› (ne_of_beq_false rfl) _ _
  | putFirstSeen currency time =>
    refine ⟨?_, ?_, ?_, ?_, ?_, ?_, hseen.put (r := (currency, time)) trivial⟩ <;>
      exact .other ‹_› (ne_of_beq_false rfl) _ _
  | dropWater id =>
    refine ⟨hwater.drop fun _ _ => Digest.ext, ?_, ?_, ?_, ?_, ?_, ?_⟩ <;>
      exact .other ‹_› (ne_of_beq_false rfl) _ _
  | dropRate id =>
    refine ⟨?_, hrates.drop fun _ _ => Digest.ext, ?_, ?_, ?_, ?_, ?_⟩ <;>
      exact .other ‹_› (ne_of_beq_false rfl) _ _
  | dropInvite id =>
    refine ⟨?_, ?_, hinvites.drop fun _ _ => Digest.ext, ?_, ?_, ?_, ?_⟩ <;>
      exact .other ‹_› (ne_of_beq_false rfl) _ _

theorem batch (h : t.Mirrored For entries) {batch : Batch} (hbatch : AboutStabilizer batch) :
    t.Mirrored For (batch.foldl Store.applyEntry entries) := by
  have hsame (kind : RecordKind) (hkind : kind ∈ kinds) :=
    Store.getElem?_foldl_applyEntry (hbatch.misses hkind) entries
  exact ⟨h.water.congr (hsame .waterPrice (by decide)),
    h.rates.congr (hsame .exchangeRate (by decide)), h.invites.congr (hsame .invite (by decide)),
    h.turnouts.congr (hsame .turnout (by decide)), h.rollups.congr (hsame .rollup (by decide)),
    h.urls.congr (hsame .sourceUrl (by decide)), h.firstSeen.congr (hsame .firstSeen (by decide))⟩

theorem setSequence (h : t.Mirrored For entries) (n : Nat) :
    { t with nextSequence := n }.Mirrored For entries :=
  ⟨h.water, h.rates, h.invites, h.turnouts, h.rollups, h.urls, h.firstSeen⟩

/-- Each record is kept under its own key. -/
theorem keyed (h : t.Mirrored For entries) : t.Keyed := by
  refine ⟨fun id r hr => ?_, fun id r hr => ?_, fun id i hi => ?_⟩
  · obtain ⟨_, -, hid, rfl⟩ := (h.water.lists Shelf.apart_ofDigest id r).1 hr
    exact hid
  · obtain ⟨_, -, hid, rfl⟩ := (h.rates.lists Shelf.apart_ofDigest id r).1 hr
    exact hid
  · obtain ⟨_, -, hid, rfl⟩ := (h.invites.lists Shelf.apart_ofDigest id i).1 hi
    exact hid

theorem id_of_url (h : t.Mirrored For entries) {id : Digest} {u : SourceUrl}
    (hu : t.urls[id]? = some u) : u.id = id := by
  obtain ⟨_, -, hid, rfl⟩ := (h.urls.lists Shelf.apart_ofDigest id u).1 hu
  exact hid

theorem currency_of_invite (h : t.Mirrored For entries) {id : Digest} {i : Invite}
    (hi : t.invites[id]? = some i) : For i.currency := by
  obtain ⟨_, hstored, -, rfl⟩ := (h.invites.lists Shelf.apart_ofDigest id i).1 hi
  exact hstored.1

theorem exists_load (h : t.Mirrored For s.entries) (hreads : s.readsFail = false) :
    ∃ t', load s = .ok t' := by
  obtain ⟨water, hwater, -⟩ := h.water.filed.records hreads
  obtain ⟨rates, hrates, -⟩ := h.rates.filed.records hreads
  obtain ⟨invites, hinvites, -⟩ := h.invites.filed.records hreads
  obtain ⟨turnouts, hturnouts, -⟩ := h.turnouts.filed.records hreads
  obtain ⟨rollups, hrollups, -⟩ := h.rollups.filed.records hreads
  obtain ⟨urls, hurls, -⟩ := h.urls.filed.records hreads
  obtain ⟨seen, hseen, -⟩ := h.firstSeen.filed.records hreads
  change s.records (Reading WaterPrice) .waterPrice = .ok water at hwater
  change s.records (Reading ExchangeRate) .exchangeRate = .ok rates at hrates
  change s.records Invite .invite = .ok invites at hinvites
  change s.records Turnout .turnout = .ok turnouts at hturnouts
  change s.records Rollup .rollup = .ok rollups at hrollups
  change s.records SourceUrl .sourceUrl = .ok urls at hurls
  change s.records (String × UInt64) .firstSeen = .ok seen at hseen
  unfold load
  rw [hwater, hrates, hinvites, hturnouts, hrollups, hurls, hseen]
  exact ⟨_, rfl⟩

theorem restores (h : t.Mirrored For s.entries) (hload : load s = .ok t') : t.Restores t' := by
  have hloaded := loaded_of_load hload
  obtain ⟨water, hwater, hwaterTable⟩ := hloaded.water
  obtain ⟨rates, hrates, hratesTable⟩ := hloaded.rates
  obtain ⟨invites, hinvites, hinvitesTable⟩ := hloaded.invites
  obtain ⟨rollups, hrollups, hrollupsTable⟩ := hloaded.rollups
  obtain ⟨urls, hurls, hurlsTable⟩ := hloaded.urls
  obtain ⟨seen, hseen, hseenTable⟩ := hloaded.firstSeen
  have hsame : t'.invites = t.invites :=
    hinvitesTable.trans (h.invites.foldl_of_records Shelf.apart_ofDigest hinvites)
  refine ⟨?_, ?_, hsame, ?_, ?_, ?_, ?_⟩
  · exact hwaterTable.trans (h.water.foldl_of_records Shelf.apart_ofDigest hwater)
  · exact hratesTable.trans (h.rates.foldl_of_records Shelf.apart_ofDigest hrates)
  · exact hrollupsTable.trans
      (h.rollups.foldl_of_records (fun _ _ => DayKey.storeId_injective) hrollups)
  · exact hurlsTable.trans (h.urls.foldl_of_records Shelf.apart_ofDigest hurls)
  · exact hseenTable.trans
      (h.firstSeen.foldl_of_records (fun _ _ => Bytes.ofString_injective) hseen)
  · rw [hloaded.nextSequence, hsame]

/-- The tables that are loaded mirror the store in turn. -/
theorem of_load (h : t.Mirrored For s.entries) (hload : load s = .ok t') :
    t'.Mirrored For s.entries := by
  have hsame := h.restores hload
  obtain ⟨turnouts, hturnouts, hturnoutsTable⟩ := (loaded_of_load hload).turnouts
  refine ⟨hsame.water ▸ h.water, hsame.rates ▸ h.rates, hsame.invites ▸ h.invites, ?_,
    hsame.rollups ▸ h.rollups, hsame.urls ▸ h.urls, hsame.firstSeen ▸ h.firstSeen⟩
  refine ⟨h.turnouts.filed, fun _ => ?_⟩
  rw [hturnoutsTable]
  exact h.turnouts.filed.lists_of_records hturnouts

/-- Where no keys share an id, everything is loaded as it was kept. -/
theorem load (h : t.Mirrored For s.entries) (hapart : (turnoutsShelf For).Apart)
    (hreads : s.readsFail = false) :
    load s = .ok { t with nextSequence := sequenceAfter t.invites } := by
  obtain ⟨t', hload⟩ := h.exists_load hreads
  have hsame := h.restores hload
  obtain ⟨turnouts, hrecords, hturnoutsTable⟩ := (loaded_of_load hload).turnouts
  have hturnouts : t'.turnouts = t.turnouts :=
    hturnoutsTable.trans (h.turnouts.foldl_of_records hapart hrecords)
  obtain ⟨hwater, hrates, hinvites, hrollups, hurls, hseen, hnext⟩ := hsame
  rw [hload, ← hwater, ← hrates, ← hinvites, ← hturnouts, ← hrollups, ← hurls, ← hseen]
  rw [← hinvites] at hnext
  rw [← hnext]

end Tables.Mirrored

namespace Oracle

/-- The request issues no invites for the empty code. -/
def Request.Named : Request → Prop
  | .issue _ _ currency _ _ | .issueForTarget _ _ currency _ _ => currency ≠ some ""
  | .submitWater _ _ | .submitRate _ _ | .endorse _ _ | .expireInvites _ | .prune _ | .rollUpDay _ _
  | .registerUrl _ _ _ _ _ _ | .endorseUrl _ _ | .recordUrlCheck _ _ _ => True

def Event.Named : Event → Prop
  | .request r => r.Named
  | .storeTurns _ _ => True

def Mirrored (o : Oracle) : Prop := o.tables.Mirrored (· ≠ some "") o.store.entries

namespace Mirrored

variable {o : Oracle} (h : o.Mirrored)

include h

theorem commit {α : Type} {edits : List Edit} (result : α)
    (hedits : ∀ e ∈ edits, e.PutsFor (· ≠ some "")) : (o.commit edits result).2.Mirrored :=
  commit_invariant result h fun e he _ _ ht => ht.apply (hedits e he)

theorem key_turnout (key : TurnoutKey) : (o.turnout key).key = key := by
  unfold turnout
  cases hkey : o.tables.turnouts[key]? with
  | none => rfl
  | some t =>
    obtain ⟨r, -, hr, rfl⟩ := (h.turnouts.lists TurnoutKey.storeId_inj key t).1 hkey
    exact hr

theorem renewal {α : Type} {out : Outcome α} (hout : o.Renewal out) : out.2.Mirrored := by
  cases hout with
  | refused => exact h
  | committed edits result hedits =>
    refine h.commit result fun e he => ?_
    cases hedits e he <;> trivial

theorem issue (count : Nat) (kind : MeasurementKind) {currency : Option String}
    (hcurrency : currency ≠ some "") (now blockHeight : UInt64) :
    (o.issue count kind currency now blockHeight).2.Mirrored := by
  have hedits : ∀ e ∈ o.issueEdits count kind currency now blockHeight,
      e.PutsFor (· ≠ some "") := by
    intro e he
    rcases mem_issueEdits he with ⟨i, hi, rfl⟩ | rfl
    · obtain ⟨n, hn, rfl⟩ := List.mem_mapIdx.1 hi
      exact hcurrency
    · change (o.turnout ⟨currency, kind⟩).key.currency ≠ some ""
      rw [h.key_turnout]
      exact hcurrency
  rcases o.issue_cases count kind currency now blockHeight with heq | ⟨o', hcommit, heq⟩
  · rw [heq]
    exact h
  · have ho' := h.commit (o.draft count kind currency now blockHeight) hedits
    rw [hcommit] at ho'
    rw [heq]
    exact ho'.setSequence _

theorem issueForTarget (target : UInt64) (kind : MeasurementKind) {currency : Option String}
    (hcurrency : currency ≠ some "") (now blockHeight : UInt64) :
    (o.issueForTarget target kind currency now blockHeight).2.Mirrored := by
  rcases o.issueForTarget_cases target kind currency now blockHeight with heq | ⟨count, heq⟩
  · rw [heq]
    exact h
  · rw [heq]
    exact h.issue count kind hcurrency now blockHeight

theorem submit {ω α : Type} [Quantity ω α]
    (hput : ∀ r : Reading α, (Quantity.put ω r).PutsFor (· ≠ some "")) (s : Submission ω)
    (now : UInt64) : (o.submit s now).2.Mirrored := by
  unfold Oracle.submit
  split
  · exact h
  · next a ha =>
    obtain ⟨invite, measured, moments, hscreen, -, rfl⟩ := judge_of_ok ha
    have hinvite := Tables.Mirrored.currency_of_invite h
      (usableInvite_of_ok (screen_of_ok hscreen).1).1
    refine h.commit _ fun e he => ?_
    rcases Acceptance.mem_edits he with rfl | rfl | rfl | ⟨_, _, rfl⟩
    · exact hput _
    · exact hinvite
    · change (o.turnout ⟨invite.currency, invite.kind⟩).key.currency ≠ some ""
      rw [h.key_turnout]
      exact hinvite
    · trivial

theorem expireInvites (now : UInt64) : (o.expireInvites now).2.Mirrored := by
  refine h.commit _ fun e he => ?_
  obtain ⟨i, hi, rfl⟩ := List.mem_map.1 he
  obtain ⟨id, hid⟩ := Table.mem_values.1 (List.mem_filter.1 hi).1
  change i.currency ≠ some ""
  exact Tables.Mirrored.currency_of_invite h hid

theorem prune (cutoff : UInt64) : (o.prune cutoff).2.Mirrored := by
  obtain ⟨edits, hdrops, heq⟩ := o.exists_prune_eq_commit cutoff
  rw [heq]
  refine h.commit _ fun e he => ?_
  have hdrop := hdrops e he
  cases e <;> trivial

theorem after {r : Request} (hr : r.Named) : (o.after r).Mirrored := by
  cases r with
  | issue count kind currency now blockHeight => exact h.issue count kind hr now blockHeight
  | issueForTarget target kind currency now blockHeight =>
    exact h.issueForTarget target kind hr now blockHeight
  | submitWater s now =>
    have hput : ∀ r : Reading WaterPrice, (Edit.putWater r).PutsFor (· ≠ some "") :=
      fun _ => trivial
    exact h.submit hput s now
  | submitRate s now =>
    have hput : ∀ r : Reading ExchangeRate, (Edit.putRate r).PutsFor (· ≠ some "") :=
      fun _ => trivial
    exact h.submit hput s now
  | endorse => exact h.renewal (renewal_endorse ..)
  | expireInvites now => exact h.expireInvites now
  | prune cutoff => exact h.prune cutoff
  | rollUpDay => exact h.renewal (clerical_rollUpDay ..).renewal
  | registerUrl => exact h.renewal (clerical_registerUrl ..).renewal
  | endorseUrl => exact h.renewal (clerical_endorseUrl ..).renewal
  | recordUrlCheck => exact h.renewal (clerical_recordUrlCheck ..).renewal

theorem run {events : List Event} (hevents : ∀ e ∈ events, e.Named) : (o.run events).Mirrored := by
  induction events generalizing o with
  | nil => exact h
  | cons e events ih =>
    have he : (o.step e).Mirrored := by
      cases e with
      | request r => exact h.after (hevents _ List.mem_cons_self)
      | storeTurns => exact h
    exact ih he fun f hf => hevents f (List.mem_cons_of_mem e hf)

end Mirrored

theorem tables_of_begin? {store : Store} {directory : Directory} {config : Config} {o : Oracle}
    (h : begin? store directory config = .ok o) :
    Tables.load store = .ok o.tables ∧ o.store = store := by
  obtain ⟨tables, htables, h⟩ := bind_eq_ok_iff.1 h
  obtain rfl := Except.ok.inj h
  exact ⟨htables, rfl⟩

/-- An oracle can begin over any store that can be loaded. -/
theorem begin?_of_load {s : Store} {t : Tables} (h : Tables.load s = .ok t) (directory : Directory)
    (config : Config) :
    begin? s directory config = .ok ⟨s, directory, config.measurement, config.targets, t⟩ := by
  unfold begin?
  rw [h]
  rfl

theorem tables_of_begin?_of_empty {store : Store} {directory : Directory} {config : Config}
    {o : Oracle} (hempty : store.entries = ∅) (h : begin? store directory config = .ok o) :
    o.tables = .empty := by
  obtain ⟨hload, rfl⟩ := tables_of_begin? h
  cases hreads : o.store.readsFail with
  | false =>
    have hmirrored : Tables.empty.Mirrored (· ≠ some "") o.store.entries := by
      rw [hempty]
      exact Tables.mirrored_empty
    rw [hmirrored.load TurnoutKey.storeId_inj hreads] at hload
    exact (Except.ok.inj hload).symm
  | true =>
    have hfails : Tables.load o.store = .error .readFailed := by
      simp only [Tables.load, Store.records, Store.scan, hreads, if_true]
      rfl
    rw [hfails] at hload
    exact nomatch hload

theorem mirrored_of_begin? {store : Store} {directory : Directory} {config : Config} {o : Oracle}
    (hempty : store.entries = ∅) (h : begin? store directory config = .ok o) : o.Mirrored := by
  unfold Mirrored
  rw [tables_of_begin?_of_empty hempty h, (tables_of_begin? h).2, hempty]
  exact Tables.mirrored_empty

/-- An oracle that began over an empty store can be begun again at any time, over what its store then
holds, with the same observations, invites, turnouts, rollups, pages and first times. Neither
refusals nor failures of the store come between the two. -/
theorem begin?_of_run {store : Store} {directory : Directory} {config : Config} {o : Oracle}
    (hempty : store.entries = ∅) (hbegin : begin? store directory config = .ok o)
    {events : List Event} (hevents : ∀ e ∈ events, e.Named) {s : Store}
    (hentries : s.entries = (o.run events).store.entries) (hreads : s.readsFail = false)
    (directory' : Directory) (config' : Config) :
    ∃ q, begin? s directory' config' = .ok q ∧
      q.tables = { (o.run events).tables with
        nextSequence := Tables.sequenceAfter (o.run events).tables.invites } := by
  have hmirrored : (o.run events).tables.Mirrored (· ≠ some "") s.entries := by
    rw [hentries]
    exact (mirrored_of_begin? hempty hbegin).run hevents
  have hload := hmirrored.load TurnoutKey.storeId_inj hreads
  exact ⟨_, begin?_of_load hload directory' config', rfl⟩

theorem begin?_of_adasRun :
    ∃ q, begin? ⟨((fresh adaAlone {}).run adasRun).store.entries, none, false⟩ adaAlone {} = .ok q ∧
      (q.tables.invites.values.map Invite.isUsed).countP id = 1 ∧ q.tables.water.size = 1 := by
  have hbegin : begin? .empty adaAlone {} = .ok (fresh adaAlone {}) := rfl
  have hnamed : ∀ e ∈ adasRun, e.Named := by
    simp [adasRun, Event.Named, Request.Named]
  obtain ⟨q, hq, htables⟩ := begin?_of_run rfl hbegin hnamed
    (s := ⟨((fresh adaAlone {}).run adasRun).store.entries, none, false⟩) rfl rfl adaAlone {}
  refine ⟨q, hq, ?_⟩
  rw [htables]
  decide +kernel

end Oracle

end WaterPeg
