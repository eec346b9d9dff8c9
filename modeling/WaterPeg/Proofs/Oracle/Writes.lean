import WaterPeg.Proofs.Oracle.Issues

/-!
What requests write. A request edits records of its own kinds, in memory and in the store alike, and
leaves those of all other kinds as they are.
-/
namespace WaterPeg.Oracle

def Request.kinds : Request → List RecordKind
  | .issue _ _ _ _ _ | .issueForTarget _ _ _ _ _ => [.invite, .turnout]
  | .submitWater _ _ => [.waterPrice, .invite, .turnout, .firstSeen]
  | .submitRate _ _ => [.exchangeRate, .invite, .turnout, .firstSeen]
  | .endorse _ _ => [.waterPrice, .exchangeRate]
  | .expireInvites _ => [.invite]
  | .prune _ => [.waterPrice, .exchangeRate, .invite]
  | .rollUpDay _ _ => [.rollup]
  | .registerUrl _ _ _ _ _ _ | .endorseUrl _ _ | .recordUrlCheck _ _ _ => [.sourceUrl]

/-- Edits of records of these kinds, made in memory and in the store, lead from one oracle to the
other. The places in the order of issue are counted besides. -/
inductive Writes (kinds : List RecordKind) (o o' : Oracle) : Prop
  | mk (edits : List Edit) (n : Nat) (hkinds : ∀ e ∈ edits, e.slot.1 ∈ kinds)
    (htables : o'.tables = { edits.foldl Tables.apply o.tables with nextSequence := n })
    (hentries : o'.store.entries = (edits.map Edit.entry).foldl Store.applyEntry o.store.entries)

variable {o : Oracle} {kinds : List RecordKind}

namespace Writes

theorem refl (kinds : List RecordKind) (o : Oracle) : Writes kinds o o :=
  .mk [] o.tables.nextSequence (fun _ he => absurd he List.not_mem_nil) rfl rfl

theorem commit {α : Type} {edits : List Edit} (h : ∀ e ∈ edits, e.slot.1 ∈ kinds) (o : Oracle)
    (result : α) : Writes kinds o (o.commit edits result).2 := by
  rcases o.commit_cases edits result with ⟨why, hcommit⟩ | ⟨store, hcommit⟩
  · rw [hcommit]
    exact .refl kinds o
  · have hentries := entries_of_commit hcommit
    rw [hcommit]
    refine .mk edits o.tables.nextSequence h ?_ hentries
    rw [← o.tables.nextSequence_foldl_apply edits]

theorem commit_singleton {α : Type} {edit : Edit} (h : edit.slot.1 ∈ kinds) (o : Oracle)
    (result : α) : Writes kinds o (o.commit [edit] result).2 :=
  commit (fun _ he => List.mem_singleton.1 he ▸ h) o result

theorem commit_putUrl {α : Type} (u : SourceUrl) (o : Oracle) (result : α) :
    Writes [.sourceUrl] o (o.commit [.putUrl u] result).2 := by
  refine commit_singleton ?_ o result
  exact .head _

theorem setSequence {o' : Oracle} (h : Writes kinds o o') (n : Nat) :
    Writes kinds o { o' with tables := { o'.tables with nextSequence := n } } := by
  obtain ⟨edits, m, hkinds, htables, hentries⟩ := h
  refine .mk edits n hkinds ?_ hentries
  dsimp only
  rw [htables]

theorem issue (count : Nat) (kind : MeasurementKind) (currency : Option String)
    (now blockHeight : UInt64) :
    Writes [.invite, .turnout] o (o.issue count kind currency now blockHeight).2 := by
  have hkinds : ∀ e ∈ o.issueEdits count kind currency now blockHeight,
      e.slot.1 ∈ [RecordKind.invite, .turnout] := by
    intro e he
    rcases mem_issueEdits he with ⟨i, -, rfl⟩ | rfl
    · exact .head _
    · exact .tail _ (.head _)
  rcases o.issue_cases count kind currency now blockHeight with heq | ⟨o', hcommit, heq⟩
  · rw [heq]
    exact .refl _ o
  · have hwrites := commit hkinds o (o.draft count kind currency now blockHeight)
    rw [hcommit] at hwrites
    rw [heq]
    exact hwrites.setSequence _

theorem submit {ω α : Type} [Quantity ω α] {kind : RecordKind}
    (hput : ∀ r : Reading α, (Quantity.put ω r).slot.1 = kind) (s : Submission ω) (now : UInt64) :
    Writes [kind, .invite, .turnout, .firstSeen] o (o.submit s now).2 := by
  unfold Oracle.submit
  split
  · exact .refl _ o
  · refine .commit (fun e he => ?_) o _
    rcases Acceptance.mem_edits he with rfl | rfl | rfl | ⟨_, _, rfl⟩
    · rw [hput]
      exact .head _
    all_goals simp [Edit.slot]

theorem endorse (id : Digest) (validator : String) :
    Writes [.waterPrice, .exchangeRate] o (o.endorse id validator).2 := by
  unfold Oracle.endorse
  split
  · split
    · exact .refl _ o
    · refine .commit_singleton ?_ o _
      exact .head _
  · split
    · split
      · exact .refl _ o
      · refine .commit_singleton ?_ o _
        exact .tail _ (.head _)
    · exact .refl _ o

theorem prune (cutoff : UInt64) :
    Writes [.waterPrice, .exchangeRate, .invite] o (o.prune cutoff).2 := by
  obtain ⟨edits, hdrops, heq⟩ := o.exists_prune_eq_commit cutoff
  rw [heq]
  refine .commit (fun e he => ?_) o _
  have hdrop := hdrops e he
  cases e <;> first | exact hdrop.elim | simp [Edit.slot]

theorem rollUpDay (date : Date) (blockHeight : UInt64) :
    Writes [.rollup] o (o.rollUpDay date blockHeight).2 := by
  unfold Oracle.rollUpDay
  split
  · exact .refl _ o
  · refine .commit (fun e he => ?_) o _
    obtain ⟨r, -, rfl⟩ := List.mem_map.1 he
    exact .head _

theorem registerUrl (url : String) (kind : MeasurementKind) (currency : Option String)
    (submitter : String) (now blockHeight : UInt64) :
    Writes [.sourceUrl] o (o.registerUrl url kind currency submitter now blockHeight).2 := by
  unfold Oracle.registerUrl
  split
  · exact .refl _ o
  · dsimp only
    split
    · exact .refl _ o
    · exact .commit_putUrl _ o _

theorem endorseUrl (id : Digest) (validator : String) :
    Writes [.sourceUrl] o (o.endorseUrl id validator).2 := by
  unfold Oracle.endorseUrl
  split
  · exact .refl _ o
  · split
    · exact .refl _ o
    · split
      · exact .refl _ o
      · exact .commit_putUrl _ o _

theorem recordUrlCheck (id : Digest) (success : Bool) (now : UInt64) :
    Writes [.sourceUrl] o (o.recordUrlCheck id success now).2 := by
  unfold Oracle.recordUrlCheck
  split
  · exact .refl _ o
  · exact .commit_putUrl _ o _

end Writes

theorem writes_after (o : Oracle) (r : Request) : Writes r.kinds o (o.after r) := by
  cases r with
  | issue => exact .issue ..
  | issueForTarget target kind currency now blockHeight =>
    change Writes _ o (o.issueForTarget target kind currency now blockHeight).2
    rcases o.issueForTarget_cases target kind currency now blockHeight with heq | ⟨count, heq⟩
    · rw [heq]
      exact .refl _ o
    · rw [heq]
      exact .issue ..
  | submitWater => exact .submit (fun _ => rfl) ..
  | submitRate => exact .submit (fun _ => rfl) ..
  | endorse => exact .endorse ..
  | expireInvites =>
    refine .commit (fun e he => ?_) o _
    obtain ⟨i, -, rfl⟩ := List.mem_map.1 he
    exact .head _
  | prune => exact .prune _
  | rollUpDay => exact .rollUpDay ..
  | registerUrl => exact .registerUrl ..
  | endorseUrl => exact .endorseUrl ..
  | recordUrlCheck => exact .recordUrlCheck ..

namespace Writes

variable {o' : Oracle} (h : Writes kinds o o')

include h

/-- The entries of other kinds are left alone. -/
theorem getElem?_entries {kind : RecordKind} (hkind : kind ∉ kinds) (id : Bytes) :
    o'.store.entries[kind.key id]? = o.store.entries[kind.key id]? := by
  obtain ⟨edits, n, hkinds, -, hentries⟩ := h
  rw [hentries]
  refine Store.getElem?_foldl_applyEntry (fun e he => ?_) _ id
  obtain ⟨edit, hedit, rfl⟩ := List.mem_map.1 he
  exact ⟨edit.slot.1, edit.slot.2, fun heq => hkind (heq ▸ hkinds edit hedit), edit.key_entry⟩

/-- What edits of the kinds keep of the tables, and counting on, the request keeps. -/
theorem tables_keep {α : Type} (f : Tables → α)
    (hkeep : ∀ e : Edit, e.slot.1 ∈ kinds → ∀ t : Tables, f (t.apply e) = f t)
    (hcount : ∀ (t : Tables) n, f { t with nextSequence := n } = f t) : f o'.tables = f o.tables := by
  obtain ⟨edits, n, hkinds, htables, -⟩ := h
  rw [htables, hcount]
  exact Tables.foldl_apply_keeps f (fun e he => hkeep e (hkinds e he)) o.tables

end Writes

end WaterPeg.Oracle
