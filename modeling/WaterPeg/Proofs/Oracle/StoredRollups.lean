import WaterPeg.Proofs.Oracle.Lives
import WaterPeg.Proofs.Oracle.Writes

/-!
Rollups in the store. Each currency and day has an entry of its own there, so that a rollup can be
overwritten by a later one of the same currency and day and by nothing else.
-/
namespace WaterPeg

def Rollup.latest? (rollups : List Rollup) (key : DayKey) : Option Rollup :=
  (rollups.filter (·.key = key)).getLast?

theorem Rollup.latest?_append (rollups rollups' : List Rollup) (key : DayKey) :
    latest? (rollups ++ rollups') key = (latest? rollups' key).or (latest? rollups key) := by
  rw [latest?, List.filter_append, List.getLast?_append]
  rfl

theorem Rollup.latest?_singleton (r : Rollup) (key : DayKey) :
    latest? [r] key = if r.key = key then some r else none := by
  unfold latest?
  split <;> simp [*]

def Store.rollupAt? (entries : Table Bytes Bytes) (key : DayKey) : Option Bytes :=
  entries[RecordKind.rollup.key key.storeId]?

theorem Store.rollupAt?_putRollup (entries : Table Bytes Bytes) (r : Rollup) (key : DayKey) :
    rollupAt? (applyEntry entries (Edit.putRollup r).entry) key =
      ((Rollup.latest? [r] key).map encode).or (rollupAt? entries key) := by
  have hput : rollupAt? (applyEntry entries (Edit.putRollup r).entry) key =
      if RecordKind.rollup = .rollup ∧ r.key.storeId = key.storeId then some (encode r)
      else rollupAt? entries key := getElem?_applyEntry ..
  rw [hput, Rollup.latest?_singleton]
  by_cases hkey : r.key = key
  · rw [if_pos ⟨rfl, congrArg DayKey.storeId hkey⟩, if_pos hkey]
    rfl
  · rw [if_neg fun h => hkey (DayKey.storeId_injective h.2), if_neg hkey]
    rfl

/-- Of the rollups that are put, the last one of a currency and day is left. -/
theorem Store.rollupAt?_foldl_putRollup (rollups : List Rollup) (entries : Table Bytes Bytes)
    (key : DayKey) :
    rollupAt? (((rollups.map Edit.putRollup).map Edit.entry).foldl applyEntry entries) key =
      ((Rollup.latest? rollups key).map encode).or (rollupAt? entries key) := by
  induction rollups generalizing entries with
  | nil => rfl
  | cons r rollups ih =>
    have hlast : Rollup.latest? (r :: rollups) key = _ := Rollup.latest?_append [r] rollups key
    rw [List.map_cons, List.map_cons, List.foldl_cons, ih, rollupAt?_putRollup, hlast,
      Option.map_or, Option.or_assoc]

namespace Oracle

def rolledIn (o : Oracle) : Chapter → List Rollup
  | .event (.request (.rollUpDay date blockHeight)) => Outcome.items (o.rollUpDay date blockHeight)
  | _ => []

def rolledOver (o : Oracle) : List Chapter → List Rollup
  | [] => []
  | c :: life => o.rolledIn c ++ (o.through c).rolledOver life

/-- Under each key stands the last of the rollups, or what stood there before if there is none. -/
def Leaves (o : Oracle) (rollups : List Rollup) (o' : Oracle) : Prop :=
  ∀ key, Store.rollupAt? o'.store.entries key =
    ((Rollup.latest? rollups key).map encode).or (Store.rollupAt? o.store.entries key)

namespace Leaves

variable {o o' o'' : Oracle} {rollups rollups' : List Rollup}

theorem refl (o : Oracle) : o.Leaves [] o := fun _ => rfl

theorem trans (h : o.Leaves rollups o') (h' : o'.Leaves rollups' o'') :
    o.Leaves (rollups ++ rollups') o'' := by
  intro key
  rw [h' key, h key, Rollup.latest?_append, Option.map_or, Option.or_assoc]

theorem of_writes {kinds : List RecordKind} (h : Writes kinds o o') (hkinds : .rollup ∉ kinds) :
    o.Leaves [] o' := fun key => h.getElem?_entries hkinds key.storeId

end Leaves

theorem leaves_rollUpDay (o : Oracle) (date : Date) (blockHeight : UInt64) :
    o.Leaves (Outcome.items (o.rollUpDay date blockHeight)) (o.rollUpDay date blockHeight).2 := by
  unfold rollUpDay
  split
  · exact .refl o
  · next start stop _ =>
    dsimp only
    generalize (o.tables.currenciesAt fun time => start ≤ time && time ≤ stop).map
      (o.rollup · date start stop blockHeight) = rollups
    rcases o.commit_cases (rollups.map .putRollup) rollups with ⟨why, h⟩ | ⟨store, h⟩
    · rw [h]
      exact .refl o
    · have hentries := entries_of_commit h
      rw [h]
      intro key
      rw [hentries]
      exact Store.rollupAt?_foldl_putRollup rollups o.store.entries key

/-- Only the rollups of a day are stored as rollups. -/
theorem leaves_step (o : Oracle) (e : Event) : o.Leaves (o.rolledIn (.event e)) (o.step e) := by
  cases e with
  | storeTurns => exact .refl o
  | request r =>
    have hwrites := o.writes_after r
    cases r with
    | rollUpDay date blockHeight => exact leaves_rollUpDay o date blockHeight
    | _ => exact .of_writes hwrites (by simp [Request.kinds])

theorem leaves_through (o : Oracle) (c : Chapter) : o.Leaves (o.rolledIn c) (o.through c) := by
  refine through_cases (P := fun c q => o.Leaves (o.rolledIn c) q) (leaves_step o) ?_
    (fun _ _ => .refl o) c
  intro directory config q hbegin
  unfold Leaves
  rw [(tables_of_begin? hbegin).2]
  exact fun _ => rfl

theorem leaves_live (o : Oracle) (life : List Chapter) :
    o.Leaves (o.rolledOver life) (o.live life) := by
  induction life generalizing o with
  | nil => exact .refl o
  | cons c life ih => exact (leaves_through o c).trans (ih (o.through c))

/-- Different currencies or days have different ids, whatever the currencies are made of and however
far off the days, and records of other kinds do not stand under the keys of rollups. So all through
the life of a store no rollup is overwritten but by a later one of its own currency and day: the last
one of these is what is stored. -/
theorem rollups_apart :
    (∀ a b : DayKey, a.storeId = b.storeId → a = b) ∧
      (∀ (key : DayKey) kind id, RecordKind.key kind id = RecordKind.rollup.key key.storeId →
        kind = .rollup ∧ id = key.storeId) ∧
      ∀ (o : Oracle) (life : List Chapter) (key : DayKey),
        (o.live life).store.entries[RecordKind.rollup.key key.storeId]? =
          ((Rollup.latest? (o.rolledOver life) key).map encode).or
            o.store.entries[RecordKind.rollup.key key.storeId]? :=
  ⟨fun _ _ => DayKey.storeId_injective, fun _ _ _ => RecordKind.key_inj.1, leaves_live⟩

end Oracle

end WaterPeg
