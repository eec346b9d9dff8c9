import WaterPeg.Proofs.Results
import WaterPeg.Proofs.Store.Scans

/-!
Stores that do not fail are one and the same map. A store may be the map in memory, share another
store, or apply batches one entry at a time; whatever is asked of it, the answers are those of a
function from keys to values that is updated key by key.
-/
namespace WaterPeg

namespace Store

/-! ## Calls -/

inductive Call
  | read (key : Bytes)
  | write (key value : Bytes)
  | erase (key : Bytes)
  | batch (entries : Batch)
  | scan (start : Bytes)

inductive Answer
  | done
  | value (value : Option Bytes)
  | found (entries : List (Bytes × Bytes))

/-- What a store does when it is called. A call that changes nothing leaves the store as it was. -/
structure Operations where
  read? : Store → Bytes → Except StoreError (Option Bytes)
  write : Store → Bytes → Bytes → Except StoreError Store
  erase : Store → Bytes → Except StoreError Store
  applyBatch : Store → Batch → Except StoreError Store
  scan : Store → Bytes → Except StoreError (List (Bytes × Bytes))

namespace Operations

def memory : Operations := ⟨Store.read?, Store.write, Store.erase, Store.applyBatch, Store.scan⟩

/-- A store that others share passes all calls on. -/
def shared (inner : Operations) : Operations where
  read? s key := inner.read? s key
  write s key value := inner.write s key value
  erase s key := inner.erase s key
  applyBatch s batch := inner.applyBatch s batch
  scan s start := inner.scan s start

def applyEntry (ops : Operations) (s : Store) : Bytes × Option Bytes → Except StoreError Store
  | (key, some value) => ops.write s key value
  | (key, none) => ops.erase s key

/-- A store without batches of its own makes a call of each entry, up to the first that fails. -/
def unbatched (inner : Operations) : Operations where
  read? s key := inner.read? s key
  write s key value := inner.write s key value
  erase s key := inner.erase s key
  applyBatch s batch := batch.foldlM inner.applyEntry s
  scan s start := inner.scan s start

/-- Over the map in memory these are the batches that may fail midway. -/
theorem applyBatch_unbatched_memory : memory.unbatched.applyBatch = Store.applyEach := rfl

def call (ops : Operations) (s : Store) : Call → Except StoreError (Answer × Store)
  | .read key => (ops.read? s key).map fun value => (.value value, s)
  | .write key value => (ops.write s key value).map fun s => (.done, s)
  | .erase key => (ops.erase s key).map fun s => (.done, s)
  | .batch entries => (ops.applyBatch s entries).map fun s => (.done, s)
  | .scan start => (ops.scan s start).map fun entries => (.found entries, s)

def answers (ops : Operations) (s : Store) : List Call → Except StoreError (List Answer)
  | [] => .ok []
  | c :: calls => do
    let (answer, s) ← ops.call s c
    let rest ← ops.answers s calls
    .ok (answer :: rest)

end Operations

inductive Backend
  | memory
  | shared (inner : Backend)
  | unbatched (inner : Backend)

def Backend.operations : Backend → Operations
  | .memory => .memory
  | .shared inner => inner.operations.shared
  | .unbatched inner => inner.operations.unbatched

/-! ## The map behind the stores -/

def Contents := Bytes → Option Bytes

namespace Contents

def set (m : Contents) (e : Bytes × Option Bytes) : Contents :=
  fun key => if e.1 = key then e.2 else m key

def after (m : Contents) : Call → Contents
  | .read _ | .scan _ => m
  | .write key value => m.set (key, some value)
  | .erase key => m.set (key, none)
  | .batch entries => entries.foldl set m

/-- What the map answers. A scan gives the entries whose keys begin with some bytes, by ascending
key. -/
inductive Answers (m : Contents) : Call → Answer → Prop
  | read (key : Bytes) : Answers m (.read key) (.value (m key))
  | write (key value : Bytes) : Answers m (.write key value) .done
  | erase (key : Bytes) : Answers m (.erase key) .done
  | batch (entries : Batch) : Answers m (.batch entries) .done
  | scan (start : Bytes) (entries : List (Bytes × Bytes))
      (hmem : ∀ key value, (key, value) ∈ entries ↔ start <+: key ∧ m key = some value)
      (hascending : entries.Pairwise fun a b => a.1 < b.1) :
      Answers m (.scan start) (.found entries)

inductive AnswersAll : Contents → List Call → List Answer → Prop
  | nil (m : Contents) : AnswersAll m [] []
  | cons {m : Contents} {c : Call} {calls : List Call} {answer : Answer} {answers : List Answer}
      (h : m.Answers c answer) (hrest : AnswersAll (m.after c) calls answers) :
      AnswersAll m (c :: calls) (answer :: answers)

/-- The last entry of a batch for a key is what counts. -/
theorem after_batch (m : Contents) (entries : Batch) (key : Bytes) :
    m.after (.batch entries) key = (entries.reverse.lookup key).getD (m key) := by
  change entries.foldl set m key = _
  induction entries generalizing m with
  | nil => rfl
  | cons e entries ih =>
    rw [List.foldl_cons, ih, List.reverse_cons, List.lookup_append, set]
    cases entries.reverse.lookup key with
    | some value => rfl
    | none =>
      obtain ⟨k, value⟩ := e
      by_cases hk : k = key
      · simp [hk]
      · have hne : (key == k) = false := beq_eq_false_iff_ne.2 (Ne.symm hk)
        simp [hk, hne, List.lookup_cons]

variable {m : Contents}

/-- There is one answer only. -/
theorem Answers.unique {c : Call} {answer answer' : Answer} (h : m.Answers c answer)
    (h' : m.Answers c answer') : answer = answer' := by
  cases h with
  | read | write | erase | batch =>
    cases h'
    rfl
  | scan start entries hmem hascending =>
    cases h' with
    | scan _ entries' hmem' hascending' =>
      have hsame (e : Bytes × Bytes) : e ∈ entries ↔ e ∈ entries' :=
        (hmem e.1 e.2).trans (hmem' e.1 e.2).symm
      have hnodup {es : List (Bytes × Bytes)} (hes : es.Pairwise fun a b => a.1 < b.1) :
          es.Nodup := by
        refine hes.imp fun {a b} hlt heq => ?_
        rw [heq] at hlt
        exact absurd hlt (List.lt_irrefl _)
      have hperm := (List.perm_ext_iff_of_nodup (hnodup hascending) (hnodup hascending')).2 hsame
      congr 1
      refine hperm.eq_of_pairwise (fun a b _ _ hab hba => ?_) hascending hascending'
      exact absurd (List.lt_trans hab hba) (List.lt_irrefl _)

theorem AnswersAll.unique {calls : List Call} {answers answers' : List Answer}
    (h : m.AnswersAll calls answers) (h' : m.AnswersAll calls answers') : answers = answers' := by
  induction h generalizing answers' with
  | nil =>
    cases h'
    rfl
  | cons hanswer _ ih =>
    cases h' with
    | cons hanswer' hrest' => rw [hanswer.unique hanswer', ih hrest']

end Contents

/-! ## Stores that do not fail -/

def reliable (entries : Table Bytes Bytes) : Store := ⟨entries, none, false⟩

def contents (entries : Table Bytes Bytes) : Contents := fun key => entries[key]?

namespace Call

def reply (entries : Table Bytes Bytes) : Call → Answer
  | .read key => .value entries[key]?
  | .write _ _ | .erase _ | .batch _ => .done
  | .scan start => .found (entries.toList.filter fun e => start.isPrefixOf e.1)

def entriesAfter (entries : Table Bytes Bytes) : Call → Table Bytes Bytes
  | .read _ | .scan _ => entries
  | .write key value => entries.insert key value
  | .erase key => entries.erase key
  | .batch updates => updates.foldl applyEntry entries

end Call

def replies (entries : Table Bytes Bytes) : List Call → List Answer
  | [] => []
  | c :: calls => c.reply entries :: replies (c.entriesAfter entries) calls

structure Operations.Faithful (ops : Operations) : Prop where
  read?_eq (entries : Table Bytes Bytes) (key : Bytes) :
    ops.read? (reliable entries) key = .ok entries[key]?
  write_eq (entries : Table Bytes Bytes) (key value : Bytes) :
    ops.write (reliable entries) key value = .ok (reliable (entries.insert key value))
  erase_eq (entries : Table Bytes Bytes) (key : Bytes) :
    ops.erase (reliable entries) key = .ok (reliable (entries.erase key))
  applyBatch_eq (entries : Table Bytes Bytes) (batch : Batch) :
    ops.applyBatch (reliable entries) batch = .ok (reliable (batch.foldl Store.applyEntry entries))
  scan_eq (entries : Table Bytes Bytes) (start : Bytes) :
    ops.scan (reliable entries) start =
      .ok (entries.toList.filter fun e => start.isPrefixOf e.1)

namespace Operations

theorem faithful_memory : memory.Faithful where
  read?_eq _ _ := rfl
  write_eq _ _ _ := rfl
  erase_eq _ _ := rfl
  applyBatch_eq _ _ := rfl
  scan_eq entries := scan_eq_filter (s := reliable entries) rfl

namespace Faithful

variable {ops : Operations} (h : ops.Faithful)

include h

theorem shared : ops.shared.Faithful := ⟨h.1, h.2, h.3, h.4, h.5⟩

theorem applyEntry_eq (entries : Table Bytes Bytes) (e : Bytes × Option Bytes) :
    ops.applyEntry (reliable entries) e = .ok (reliable (Store.applyEntry entries e)) := by
  obtain ⟨key, _ | value⟩ := e
  · exact h.erase_eq entries key
  · exact h.write_eq entries key value

/-- Entry by entry a batch does the same as at once. -/
theorem unbatched : ops.unbatched.Faithful := by
  have hbatch (batch : Batch) (entries : Table Bytes Bytes) :
      batch.foldlM ops.applyEntry (reliable entries) =
        .ok (reliable (batch.foldl Store.applyEntry entries)) := by
    induction batch generalizing entries with
    | nil => rfl
    | cons e batch ih =>
      rw [List.foldlM_cons, h.applyEntry_eq]
      exact ih (Store.applyEntry entries e)
  exact ⟨h.read?_eq, h.write_eq, h.erase_eq, fun entries batch => hbatch batch entries, h.scan_eq⟩

theorem call_eq (entries : Table Bytes Bytes) (c : Call) :
    ops.call (reliable entries) c = .ok (c.reply entries, reliable (c.entriesAfter entries)) := by
  cases c with
  | read key => rw [call, h.read?_eq]; rfl
  | write key value => rw [call, h.write_eq]; rfl
  | erase key => rw [call, h.erase_eq]; rfl
  | batch batch => rw [call, h.applyBatch_eq]; rfl
  | scan start => rw [call, h.scan_eq]; rfl

theorem answers_eq (entries : Table Bytes Bytes) (calls : List Call) :
    ops.answers (reliable entries) calls = .ok (replies entries calls) := by
  induction calls generalizing entries with
  | nil => rfl
  | cons c calls ih =>
    rw [answers, h.call_eq]
    change (ops.answers (reliable (c.entriesAfter entries)) calls >>= _) = _
    rw [ih]
    rfl

end Faithful

end Operations

theorem Backend.faithful (b : Backend) : b.operations.Faithful := by
  induction b with
  | memory => exact Operations.faithful_memory
  | shared inner ih => exact ih.shared
  | unbatched inner ih => exact ih.unbatched

/-! ## Stores as maps -/

theorem contents_applyEntry (entries : Table Bytes Bytes) (e : Bytes × Option Bytes) :
    contents (applyEntry entries e) = (contents entries).set e := by
  funext key
  obtain ⟨k, _ | value⟩ := e
  · simp only [contents, applyEntry, Contents.set, Std.ExtTreeMap.getElem?_erase,
      Std.LawfulEqCmp.compare_eq_iff_eq]
  · simp only [contents, applyEntry, Contents.set, Std.ExtTreeMap.getElem?_insert,
      Std.LawfulEqCmp.compare_eq_iff_eq]

theorem contents_entriesAfter (entries : Table Bytes Bytes) (c : Call) :
    contents (c.entriesAfter entries) = (contents entries).after c := by
  cases c with
  | read | scan => rfl
  | write key value => exact contents_applyEntry entries (key, some value)
  | erase key => exact contents_applyEntry entries (key, none)
  | batch batch =>
    change contents (batch.foldl applyEntry entries) = batch.foldl Contents.set (contents entries)
    induction batch generalizing entries with
    | nil => rfl
    | cons e batch ih => rw [List.foldl_cons, List.foldl_cons, ih, contents_applyEntry]

theorem answers_reply (entries : Table Bytes Bytes) (c : Call) :
    (contents entries).Answers c (c.reply entries) := by
  cases c with
  | read key => exact .read key
  | write key value => exact .write key value
  | erase key => exact .erase key
  | batch batch => exact .batch batch
  | scan start =>
    refine .scan start _ (fun key value => ?_) ?_
    · rw [List.mem_filter, Std.ExtTreeMap.mem_toList_iff_getElem?_eq_some,
        List.isPrefixOf_iff_prefix, and_comm]
      rfl
    · have hordered := Std.ExtTreeMap.ordered_keys_toList (t := entries)
      refine (hordered.imp fun hlt => ?_).filter _
      exact Bytes.compare_eq_lt_iff.1 hlt

theorem answersAll_replies (entries : Table Bytes Bytes) (calls : List Call) :
    (contents entries).AnswersAll calls (replies entries calls) := by
  induction calls generalizing entries with
  | nil => exact .nil _
  | cons c calls ih =>
    refine .cons (answers_reply entries c) ?_
    rw [← contents_entriesAfter]
    exact ih (c.entriesAfter entries)

/-- Over the same entries all stores give the same answers, which are those of the map and no
others. The map takes from a batch the last entry for each key. -/
theorem answers_eq_of_backend (entries : Table Bytes Bytes) (calls : List Call) :
    (∃ answers,
      (∀ b : Backend, b.operations.answers (reliable entries) calls = .ok answers) ∧
        ∀ answers', (contents entries).AnswersAll calls answers' ↔ answers' = answers) ∧
      ∀ (batch : Batch) (key : Bytes), (contents entries).after (.batch batch) key =
        (batch.reverse.lookup key).getD entries[key]? := by
  have hmap := answersAll_replies entries calls
  refine ⟨⟨replies entries calls, fun b => b.faithful.answers_eq entries calls, fun answers' => ?_⟩,
    fun batch key => (contents entries).after_batch batch key⟩
  constructor
  · intro h
    exact h.unique hmap
  · rintro rfl
    exact hmap

end Store

end WaterPeg
