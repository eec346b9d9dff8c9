import WaterPeg.Proofs.Oracle.Commuting

/-!
Turnouts that overwrite each other in the store. No currency and the empty code share an id there,
so of the two turnouts of a kind the next oracle finds only the one that was posted to last.
-/
namespace WaterPeg

/-! ## The last post under an id -/

namespace TurnoutKey

def latest? (keys : List TurnoutKey) (id : Bytes) : Option TurnoutKey :=
  keys.reverse.find? fun key => key.storeId == id

variable {keys posts : List TurnoutKey} {key : TurnoutKey} {id : Bytes}

theorem of_latest? (h : latest? keys id = some key) : key ∈ keys ∧ key.storeId = id := by
  unfold latest? at h
  have hid := List.find?_some h
  exact ⟨List.mem_reverse.1 (List.mem_of_find?_eq_some h), eq_of_beq hid⟩

theorem exists_latest? (h : key ∈ keys) : ∃ last, latest? keys key.storeId = some last := by
  refine Option.isSome_iff_exists.1 (List.find?_isSome.2 ⟨key, List.mem_reverse.2 h, ?_⟩)
  exact beq_self_eq_true _

/-- Further posts to one key leave the last key as it was under any other id. -/
theorem latest?_append (hposts : posts ≠ []) (hall : ∀ k ∈ posts, k = key) (keys : List TurnoutKey)
    (id : Bytes) :
    latest? (keys ++ posts) id = if key.storeId = id then some key else latest? keys id := by
  have hlast : latest? posts id = if key.storeId = id then some key else none := by
    split
    · next hid =>
      obtain ⟨k, hk⟩ := List.exists_mem_of_ne_nil posts hposts
      obtain ⟨last, hlast⟩ := exists_latest? hk
      rw [hall k hk, hid] at hlast
      rw [hlast, hall last (of_latest? hlast).1]
    · next hid =>
      refine Option.eq_none_iff_forall_ne_some.2 fun last hlast => hid ?_
      obtain ⟨hmem, hlast⟩ := of_latest? hlast
      rwa [hall last hmem] at hlast
  unfold latest? at hlast ⊢
  rw [List.reverse_append, List.find?_append, hlast]
  split <;> simp

theorem latest?_of_alone (hmem : key ∈ keys)
    (halone : ∀ other ∈ keys, other.storeId = key.storeId → other = key) :
    latest? keys key.storeId = some key := by
  obtain ⟨last, hlast⟩ := exists_latest? hmem
  obtain ⟨hlastMem, hid⟩ := of_latest? hlast
  rw [hlast, halone last hlastMem hid]

end TurnoutKey

/-! ## Posts -/

def Turnout.Begun (c : Turnout) : Prop := c.sent ≠ 0 ∨ c.completed ≠ 0

namespace Turnout

theorem ofNatClamp_ne_zero {n : Nat} (hn : 0 < n) : UInt64.ofNatClamp n ≠ 0 := by
  intro hzero
  have hnat := congrArg UInt64.toNat hzero
  by_cases hword : n < UInt64.size
  · rw [UInt64.toNat_ofNatClamp_of_lt hword] at hnat
    exact absurd hnat (Nat.ne_of_gt hn)
  · rw [UInt64.toNat_ofNatClamp_of_le (Nat.le_of_not_lt hword)] at hnat
    exact absurd hnat (by decide)

theorem begun_recordSent (c : Turnout) {n : Nat} (hn : 0 < n) (now : UInt64) :
    (c.recordSent n now).Begun :=
  Or.inl (ofNatClamp_ne_zero (Nat.add_pos_right c.sent.toNat hn))

theorem begun_recordCompleted (c : Turnout) (now : UInt64) : (c.recordCompleted now).Begun :=
  Or.inr (ofNatClamp_ne_zero (Nat.succ_pos c.completed.toNat))

theorem Begun.ne_initial {c : Turnout} (h : c.Begun) (key : TurnoutKey) (rate : UInt64) :
    c ≠ .initial key rate := by
  rintro rfl
  rcases h with h | h
  · exact h rfl
  · exact h rfl

end Turnout

theorem Store.SameTurnouts.stored_iff {entries entries' : Table Bytes Bytes}
    (h : SameTurnouts entries entries') (c : Turnout) :
    (Tables.turnoutsShelf fun _ => True).Stored entries' c ↔
      (Tables.turnoutsShelf fun _ => True).Stored entries c := by
  have hslot : entries'[RecordKind.turnout.key c.key.storeId]? = _ := h c.key.storeId
  simp only [Shelf.Stored, Tables.turnoutsShelf, hslot]

namespace Oracle
open TurnoutKey

/-- The keys that an event posts to: those of the invites that it issues, and of the invites whose
submissions it accepts. -/
def postedIn (o : Oracle) (e : Event) : List TurnoutKey :=
  (o.issuedIn e).map Invite.turnoutKey ++ o.completedIn e

/-- What the posts of an event come to: there are none, or they put one turnout in memory and in the
store. -/
inductive Posts (o : Oracle) (e : Event) : Prop
  | none (hposted : o.postedIn e = [])
      (hturnouts : (o.step e).tables.turnouts = o.tables.turnouts)
      (hstored : Store.SameTurnouts o.store.entries (o.step e).store.entries)
  | put (c : Turnout) (hbegun : c.Begun) (hposted : o.postedIn e ≠ [])
      (hkey : ∀ key ∈ o.postedIn e, key = c.key)
      (hturnouts : (o.step e).tables.turnouts = o.tables.turnouts.insert c.key c)
      (hstored : Store.SameTurnouts
        (Store.applyEntry o.store.entries (Edit.putTurnout c).entry) (o.step e).store.entries)

theorem posts_step {o : Oracle} (hold : o.tables.Keyed) (hkeys : o.tables.TurnoutsKeyed)
    (e : Event) : o.Posts e := by
  cases posting hold e with
  | idle hissued haccepted hturnouts _ hstored =>
    refine .none ?_ hturnouts hstored
    rw [postedIn, hissued, completedIn_of_nil haccepted]
    rfl
  | issue count kind currency now blockHeight hissued haccepted _ hturnouts _ hdraft hstored =>
    have hposted : o.postedIn e =
        (o.draft count kind currency now blockHeight).map Invite.turnoutKey := by
      rw [postedIn, hissued, completedIn_of_nil haccepted, List.append_nil]
    have hbegun := (o.turnout ⟨currency, kind⟩).begun_recordSent (List.length_pos_iff.2 hdraft) now
    refine .put _ hbegun ?_ (fun key hkey => ?_) hturnouts hstored
    · rw [hposted]
      exact mt List.map_eq_nil_iff.1 hdraft
    · rw [hposted] at hkey
      obtain ⟨i, hi, rfl⟩ := List.mem_map.1 hkey
      exact (turnoutKey_of_mem_draft hi).trans (key_turnout_of_keyed hkeys _).symm
  | acceptance id i now hissued haccepted hi _ _ hturnouts _ hstored =>
    have hposted : o.postedIn e = [i.turnoutKey] := by
      rw [postedIn, hissued, completedIn_of_singleton haccepted hi]
      rfl
    have hbegun := (o.turnout i.turnoutKey).begun_recordCompleted now
    refine .put _ hbegun ?_ (fun key hkey => ?_) hturnouts hstored
    · rw [hposted]
      exact List.cons_ne_nil _ _
    · rw [hposted] at hkey
      exact (List.mem_singleton.1 hkey).trans (key_turnout_of_keyed hkeys _).symm

def postedOver (o : Oracle) : List Chapter → List TurnoutKey
  | [] => []
  | .event e :: life => o.postedIn e ++ (o.step e).postedOver life
  | .reopen directory config :: life => (o.through (.reopen directory config)).postedOver life

/-! ## Memory, store and posts -/

/-- What ties an oracle to the keys that were posted to over its store so far. In memory it has
turnouts of some of them, and in the store that of the last one under each id. -/
structure Shelved (o : Oracle) (past : List TurnoutKey) : Prop where
  kept : o.Kept
  turnoutsKeyed : o.tables.TurnoutsKeyed
  begun : ∀ (key : TurnoutKey) c, o.tables.turnouts[key]? = some c → key ∈ past ∧ c.Begun
  recorded : ∀ id key, latest? past id = some key → ∃ c, o.tables.turnouts[key]? = some c
  stored_iff : ∀ c, (Tables.turnoutsShelf fun _ => True).Stored o.store.entries c ↔
    o.tables.turnouts[c.key]? = some c ∧ latest? past c.key.storeId = some c.key

namespace Shelved

variable {o : Oracle} {past : List TurnoutKey} (h : o.Shelved past)

include h

/-- Of the turnouts of an id only the one that was put last is left. -/
theorem stored_put_iff {c : Turnout} {posts : List TurnoutKey} (hposts : posts ≠ [])
    (hkey : ∀ key ∈ posts, key = c.key) (c' : Turnout) :
    (Tables.turnoutsShelf fun _ => True).Stored
        (Store.applyEntry o.store.entries (Edit.putTurnout c).entry) c' ↔
      (if c.key = c'.key then some c else o.tables.turnouts[c'.key]?) = some c' ∧
        latest? (past ++ posts) c'.key.storeId = some c'.key := by
  have hput : (Tables.turnoutsShelf fun _ => True).Stored
      (Store.applyEntry o.store.entries (Edit.putTurnout c).entry) c' ↔
        c' = c ∨ c.key.storeId ≠ c'.key.storeId ∧
          (Tables.turnoutsShelf fun _ => True).Stored o.store.entries c' :=
    Shelf.stored_put (r := c) trivial
  rw [hput, h.stored_iff, latest?_append hposts hkey]
  by_cases hid : c.key.storeId = c'.key.storeId
  · -- Nothing but the turnout that was put is left under its id, and its key is the last one there.
    rw [if_pos hid]
    constructor
    · rintro (rfl | ⟨hne, -⟩)
      · exact ⟨if_pos rfl, rfl⟩
      · exact absurd hid hne
    · rintro ⟨hc', hlast⟩
      rw [if_pos (Option.some.inj hlast)] at hc'
      exact Or.inl (Option.some.inj hc').symm
  · have hne : c.key ≠ c'.key := fun heq => hid (congrArg storeId heq)
    rw [if_neg hid, if_neg hne]
    constructor
    · rintro (rfl | ⟨-, hc'⟩)
      · exact absurd rfl hid
      · exact hc'
    · exact fun hc' => Or.inr ⟨hid, hc'⟩

theorem step (e : Event) : (o.step e).Shelved (past ++ o.postedIn e) := by
  have hkept := h.kept.step e
  have hturnoutsKeyed := turnoutsKeyed_step h.turnoutsKeyed e
  cases posts_step h.kept.keyed h.turnoutsKeyed e with
  | none hposted hturnouts hstored =>
    rw [hposted, List.append_nil]
    refine ⟨hkept, hturnoutsKeyed, ?_, ?_, fun c => ?_⟩
    · rw [hturnouts]
      exact h.begun
    · rw [hturnouts]
      exact h.recorded
    · rw [hstored.stored_iff, hturnouts]
      exact h.stored_iff c
  | put c hbegun hposted hkey hturnouts hstored =>
    have hget (key : TurnoutKey) : (o.step e).tables.turnouts[key]? =
        if c.key = key then some c else o.tables.turnouts[key]? := by
      rw [hturnouts, Std.ExtTreeMap.getElem?_insert]
      simp only [Std.LawfulEqCmp.compare_eq_iff_eq]
    refine ⟨hkept, hturnoutsKeyed, fun key c' hc' => ?_, fun id key hlast => ?_, fun c' => ?_⟩
    · rw [hget] at hc'
      split at hc'
      · next heq =>
        obtain ⟨k, hk⟩ := List.exists_mem_of_ne_nil _ hposted
        have hmem : key ∈ o.postedIn e := by rwa [← heq, ← hkey k hk]
        exact ⟨List.mem_append_right _ hmem, Option.some.inj hc' ▸ hbegun⟩
      · exact (h.begun key c' hc').imp_left (List.mem_append_left _)
    · rw [latest?_append hposted hkey] at hlast
      rw [hget]
      split
      · exact ⟨c, rfl⟩
      · next hne =>
        split at hlast
        · exact absurd (Option.some.inj hlast) hne
        · exact h.recorded id key hlast
    · rw [hstored.stored_iff, hget]
      exact h.stored_put_iff hposted hkey c'

/-- The next oracle has the turnouts of the keys that were last under their ids. -/
theorem getElem?_turnouts_of_load {s : Store} {t : Tables} (hentries : s.entries = o.store.entries)
    (hload : Tables.load s = .ok t) (key : TurnoutKey) :
    t.turnouts[key]? =
      if latest? past key.storeId = some key then o.tables.turnouts[key]? else none := by
  obtain ⟨rs, hrs, hturnouts⟩ := (Tables.loaded_of_load hload).turnouts
  have hfiled : (Tables.turnoutsShelf fun _ => True).Filed s.entries :=
    hentries ▸ h.kept.turnouts.filed
  have hlists : (Tables.turnoutsShelf fun _ => True).Lists t.turnouts o.store.entries := by
    rw [hturnouts, ← hentries]
    exact hfiled.lists_of_records hrs
  refine Option.ext fun c => ?_
  rw [hlists key c]
  constructor
  · rintro ⟨r, hstored, rfl, rfl⟩
    rw [h.stored_iff] at hstored
    exact (if_pos hstored.2).trans hstored.1
  · intro hc
    split at hc
    · next hlast =>
      obtain rfl := h.turnoutsKeyed key c hc
      exact ⟨c, (h.stored_iff c).2 ⟨hc, hlast⟩, rfl, rfl⟩
    · exact nomatch hc

theorem begin? {directory : Directory} {config : Config} {q : Oracle}
    (hbegin : begin? o.store directory config = .ok q) : q.Shelved past := by
  obtain ⟨hload, hstore⟩ := tables_of_begin? hbegin
  have hget := h.getElem?_turnouts_of_load rfl hload
  refine ⟨(h.kept.begin? hbegin).1, turnoutsKeyed_of_load hload, fun key c hc => ?_,
    fun id key hlast => ?_, fun c => ?_⟩
  · rw [hget] at hc
    split at hc
    · exact h.begun key c hc
    · exact nomatch hc
  · rw [hget, if_pos]
    · exact h.recorded id key hlast
    · rwa [(of_latest? hlast).2]
  · rw [hstore, h.stored_iff, hget]
    refine and_congr_left fun hlast => ?_
    rw [if_pos hlast]

theorem live (life : List Chapter) : (o.live life).Shelved (past ++ o.postedOver life) := by
  induction life generalizing o past with
  | nil => rwa [postedOver, List.append_nil]
  | cons c life ih =>
    cases c with
    | event e =>
      rw [postedOver, ← List.append_assoc]
      exact ih (h.step e)
    | reopen directory config =>
      rw [postedOver]
      refine ih ?_
      cases hbegin : Oracle.begin? o.store directory config with
      | ok q =>
        rw [through_of_ok hbegin]
        exact h.begin? hbegin
      | error why => rwa [through_of_error hbegin]

end Shelved

theorem shelved_of_empty {store : Store} {directory : Directory} {config : Config} {o : Oracle}
    (hempty : store.entries = ∅) (hbegin : begin? store directory config = .ok o) :
    o.Shelved [] := by
  have htables := tables_of_begin?_of_empty hempty hbegin
  have hnone (key : TurnoutKey) : o.tables.turnouts[key]? = none := by
    rw [htables]
    exact Std.ExtTreeMap.getElem?_empty
  refine ⟨kept_of_empty hempty hbegin, ?_, fun key c hc => ?_, nofun, fun c => ?_⟩
  · exact fun key c hc => nomatch (hnone key).symm.trans hc
  · exact nomatch (hnone key).symm.trans hc
  · rw [(tables_of_begin? hbegin).2, hempty, hnone]
    refine iff_of_false (fun hc => ?_) nofun
    exact nomatch Std.ExtTreeMap.getElem?_empty.symm.trans hc.2

/-! ## The next oracle -/

structure Inherits (q o : Oracle) (posted : List TurnoutKey) : Prop where
  /-- A turnout that was begun is found again if its key was posted to last under its id. -/
  turnout_eq_iff : ∀ key, q.turnout key = o.turnout key ↔
    ((o.turnout key).Begun → latest? posted key.storeId = some key)
  /-- Otherwise the key begins anew. -/
  turnout_eq_or : ∀ key, q.turnout key = o.turnout key ∨
    q.turnout key = .initial key q.params.defaultTurnout
  /-- Only those for no currency and for the empty code can be lost. -/
  turnout_eq_of_named : ∀ key, key.currency ≠ none → key.currency ≠ some "" →
    q.turnout key = o.turnout key
  /-- All are found again unless both of those were begun for some kind. -/
  all_iff : (∀ key, q.turnout key = o.turnout key) ↔
    ∀ kind, (o.turnout ⟨none, kind⟩).Begun → ¬(o.turnout ⟨some "", kind⟩).Begun

section

variable {o q : Oracle} {key : TurnoutKey}

theorem turnout_of_some {c : Turnout} (h : o.tables.turnouts[key]? = some c) :
    o.turnout key = c := by
  rw [turnout, h]
  rfl

theorem turnout_of_none (h : o.tables.turnouts[key]? = none) :
    o.turnout key = .initial key o.params.defaultTurnout := by
  rw [turnout, h]
  rfl

namespace Shelved

variable {past : List TurnoutKey} (h : o.Shelved past)

include h

theorem begun_iff : (o.turnout key).Begun ↔ ∃ c, o.tables.turnouts[key]? = some c := by
  constructor
  · intro hbegun
    refine Option.ne_none_iff_exists'.1 fun hnone => ?_
    exact hbegun.ne_initial key o.params.defaultTurnout (turnout_of_none hnone)
  · rintro ⟨c, hc⟩
    rw [turnout_of_some hc]
    exact (h.begun key c hc).2

theorem mem_of_begun (hbegun : (o.turnout key).Begun) : key ∈ past := by
  obtain ⟨c, hc⟩ := h.begun_iff.1 hbegun
  exact (h.begun key c hc).1

variable (hentries : q.store.entries = o.store.entries)
  (hload : Tables.load q.store = .ok q.tables)

include hentries hload

theorem turnout_of_latest?_ne (hlast : latest? past key.storeId ≠ some key) :
    q.turnout key = .initial key q.params.defaultTurnout := by
  refine turnout_of_none ?_
  rw [h.getElem?_turnouts_of_load hentries hload, if_neg hlast]

variable (hdefault : q.params.defaultTurnout = o.params.defaultTurnout)

include hdefault

theorem turnout_of_latest? (hlast : latest? past key.storeId = some key) :
    q.turnout key = o.turnout key := by
  rw [turnout, turnout, h.getElem?_turnouts_of_load hentries hload, if_pos hlast, hdefault]

theorem turnout_eq_iff (key : TurnoutKey) : q.turnout key = o.turnout key ↔
    ((o.turnout key).Begun → latest? past key.storeId = some key) := by
  constructor
  · intro heq hbegun
    rw [← heq] at hbegun
    exact Decidable.byContradiction fun hlast =>
      hbegun.ne_initial _ _ (h.turnout_of_latest?_ne hentries hload hlast)
  · intro hlast
    by_cases hkept : latest? past key.storeId = some key
    · exact h.turnout_of_latest? hentries hload hdefault hkept
    · have hnone : o.tables.turnouts[key]? = none :=
        Option.eq_none_iff_forall_ne_some.2 fun c hc => hkept (hlast (h.begun_iff.2 ⟨c, hc⟩))
      rw [h.turnout_of_latest?_ne hentries hload hkept, turnout_of_none hnone, hdefault]

theorem inherits : q.Inherits o past := by
  have hiff := h.turnout_eq_iff hentries hload hdefault
  refine ⟨hiff, fun key => ?_, fun key hsome hcode => ?_, fun hall kind hnone hempty => ?_,
    fun hkinds key => ?_⟩
  · by_cases hlast : latest? past key.storeId = some key
    · exact Or.inl (h.turnout_of_latest? hentries hload hdefault hlast)
    · exact Or.inr (h.turnout_of_latest?_ne hentries hload hlast)
  · refine (hiff key).2 fun hbegun => latest?_of_alone (h.mem_of_begun hbegun) ?_
    refine fun other _ hid => Decidable.byContradiction fun hne => ?_
    rcases (shares_iff.1 ⟨hne, hid⟩).2 with ⟨-, heq⟩ | ⟨-, heq⟩
    · exact hcode heq
    · exact hsome heq
  · have hfirst := (hiff _).1 (hall ⟨none, kind⟩) hnone
    have hsecond := (hiff _).1 (hall ⟨some "", kind⟩) hempty
    have hshared : (⟨none, kind⟩ : TurnoutKey).storeId = storeId ⟨some "", kind⟩ := rfl
    rw [hshared, hsecond] at hfirst
    exact nomatch congrArg currency (Option.some.inj hfirst)
  · -- Another key that is the last one under the id has a turnout of its own in memory.
    refine (hiff key).2 fun hbegun => ?_
    obtain ⟨last, hlast⟩ := exists_latest? (h.mem_of_begun hbegun)
    have hlastBegun := h.begun_iff.2 (h.recorded _ _ hlast)
    rw [hlast]
    refine congrArg some (Decidable.byContradiction fun hne => ?_)
    obtain ⟨hkind, hcodes⟩ := shares_iff.1 ⟨hne, (of_latest? hlast).2⟩
    obtain ⟨lastCode, kind⟩ := last
    obtain ⟨code, kind'⟩ := key
    obtain rfl : kind = kind' := hkind
    rcases hcodes with ⟨rfl, rfl⟩ | ⟨rfl, rfl⟩
    · exact hkinds kind hlastBegun hbegun
    · exact hkinds kind hbegun hlastBegun

end Shelved

end

/-- Keys that differ share an id in the store exactly if they are for no currency and for the empty
code, of one kind. At any time in the life of a store that was empty at first, another oracle can
begin over it. Of two keys that share an id it finds the turnout of the one that was posted to last.
The other begins anew, and all other turnouts are as they were. -/
theorem inherits_of_live {store : Store} {directory : Directory} {config : Config} {o : Oracle}
    (hempty : store.entries = ∅) (hbegin : begin? store directory config = .ok o)
    (life : List Chapter) {s : Store} (hentries : s.entries = (o.live life).store.entries)
    (hreads : s.readsFail = false) (directory' : Directory) (config' : Config)
    (hdefault : config'.measurement.defaultTurnout = (o.live life).params.defaultTurnout) :
    (∀ a b : TurnoutKey, a ≠ b ∧ a.storeId = b.storeId ↔ a.kind = b.kind ∧
      (a.currency = none ∧ b.currency = some "" ∨ a.currency = some "" ∧ b.currency = none)) ∧
    ∃ q, begin? s directory' config' = .ok q ∧
      q.Inherits (o.live life) (o.postedOver life) := by
  refine ⟨fun a b => shares_iff, ?_⟩
  have hlive := (shelved_of_empty hempty hbegin).live life
  rw [List.nil_append] at hlive
  have hmirrored : (o.live life).tables.Mirrored (fun _ => True) s.entries := hentries ▸ hlive.kept
  obtain ⟨t, hload⟩ := hmirrored.exists_load hreads
  exact ⟨_, begin?_of_load hload directory' config', hlive.inherits hentries hload hdefault⟩

/-- Ada is invited once for no currency, and then for the empty code. -/
def adasTwoCodes : List Chapter :=
  [.event (.request (.issue 1 .waterPrice none 1750000000 1)),
    .event (.request (.issue 1 .waterPrice (some "") 1750000000 1))]

def adaAnywhere : Directory := ⟨fun _ => ["ada"], fun _ => [], ["ada"], fun _ => 0⟩

theorem inherits_of_adasTwoCodes :
    ∃ q, begin? ⟨((fresh adaAnywhere {}).live adasTwoCodes).store.entries, none, false⟩
        adaAnywhere {} = .ok q ∧
      q.turnout ⟨some "", .waterPrice⟩ =
        ((fresh adaAnywhere {}).live adasTwoCodes).turnout ⟨some "", .waterPrice⟩ ∧
      q.turnout ⟨none, .waterPrice⟩ ≠
        ((fresh adaAnywhere {}).live adasTwoCodes).turnout ⟨none, .waterPrice⟩ := by
  have hbegin : begin? .empty adaAnywhere {} = .ok (fresh adaAnywhere {}) := rfl
  have hposted : (fresh adaAnywhere {}).postedOver adasTwoCodes =
      [⟨none, .waterPrice⟩, ⟨some "", .waterPrice⟩] := by
    decide +kernel
  have hbegun :
      (((fresh adaAnywhere {}).live adasTwoCodes).turnout ⟨none, .waterPrice⟩).sent ≠ 0 := by
    decide +kernel
  have hdefault : ({} : Config).measurement.defaultTurnout =
      ((fresh adaAnywhere {}).live adasTwoCodes).params.defaultTurnout := by
    decide +kernel
  obtain ⟨-, q, hq, hinherits⟩ := inherits_of_live rfl hbegin adasTwoCodes
    (s := ⟨((fresh adaAnywhere {}).live adasTwoCodes).store.entries, none, false⟩) rfl rfl
    adaAnywhere {} hdefault
  rw [hposted] at hinherits
  refine ⟨q, hq, (hinherits.turnout_eq_iff _).2 fun _ => by decide, fun heq => ?_⟩
  have hlast := (hinherits.turnout_eq_iff _).1 heq (Or.inl hbegun)
  exact absurd hlast (by decide)

end Oracle

end WaterPeg
