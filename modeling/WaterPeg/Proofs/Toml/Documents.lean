import WaterPeg.Proofs.Toml.Lines

/-!
Plain documents: tables of distinct names, each a header and a pair for every one of its fields. A text
that is read as such lines is read as those tables, in their order.
-/
namespace WaterPeg.Toml

abbrev Named := String × Fields

def fieldPair (field : String × Toml) : Pair := ⟨[], field.1, field.2⟩

def tableSection (table : Named) : Section := ⟨⟨[], table.1, false⟩, table.2.map fieldPair⟩

def tableLines (table : Named) : List Reader.Line :=
  .header ⟨[], table.1, false⟩ :: table.2.map fun f => .pair (fieldPair f)

def tableField (table : Named) : String × Toml := (table.1, .table .header table.2)

/-! ## Sections -/

theorem sections_pairs (fields : Fields) (lines : List Reader.Line) :
    Reader.sections ((fields.map fun f => .pair (fieldPair f)) ++ lines) =
      (fields.map fieldPair ++ (Reader.sections lines).1, (Reader.sections lines).2) := by
  induction fields with
  | nil => rfl
  | cons f fields ih =>
    rw [List.map_cons, List.cons_append, Reader.sections, ih, List.map_cons, List.cons_append]

/-- The lines of a table make up a section if another table is next, or nothing more. -/
theorem sections_tableLines (table : Named) {lines : List Reader.Line} {sections : List Section}
    (h : Reader.sections lines = ([], sections)) :
    Reader.sections (tableLines table ++ lines) = ([], tableSection table :: sections) := by
  rw [tableLines, List.cons_append, Reader.sections, sections_pairs, h, List.append_nil,
    tableSection]

/-! ## Tables -/

/-- What has a key of its own is not among the fields before it. -/
theorem lookup_eq_none_of_nodup {done fields : Fields} {f : String × Toml}
    (h : ((done ++ f :: fields).map (·.1)).Nodup) : done.lookup f.1 = none := by
  rw [List.map_append, List.map_cons] at h
  have hnew := (List.nodup_append.1 h).2.2
  rw [List.lookup_eq_none_iff]
  intro e he
  rw [bne_iff_ne]
  exact fun heq => hnew e.1 (List.mem_map_of_mem he) f.1 List.mem_cons_self heq.symm

theorem addAll?_fieldPairs {done fields : Fields} (h : ((done ++ fields).map (·.1)).Nodup) :
    addAll? done (fields.map fieldPair) = some (done ++ fields) := by
  induction fields generalizing done with
  | nil =>
    rw [List.append_nil]
    rfl
  | cons f fields ih =>
    have hadd : addAt? f.1 f.2 [] done = some (done ++ [f]) := by
      simp [addAt?, add?, lookup_eq_none_of_nodup h]
    rw [List.append_cons] at h ⊢
    calc addAll? done ((f :: fields).map fieldPair)
        = (addAt? f.1 f.2 [] done).bind fun done => addAll? done (fields.map fieldPair) := rfl
      _ = addAll? (done ++ [f]) (fields.map fieldPair) := by rw [hadd, Option.bind_some]
      _ = some (done ++ [f] ++ fields) := ih h

theorem addTo?_tableSection {table : Named} (hfields : (table.2.map (·.1)).Nodup) {root : Fields}
    (hnew : root.lookup table.1 = none) :
    (tableSection table).addTo? root = some (root ++ [tableField table]) := by
  have hadd : addAll? [] (table.2.map fieldPair) = some table.2 := addAll?_fieldPairs hfields
  simp [Section.addTo?, tableSection, tableField, hnew, hadd, put]

theorem document?_tableSections {tables : List Named} (hnames : (tables.map (·.1)).Nodup)
    (hfields : ∀ t ∈ tables, (t.2.map (·.1)).Nodup) :
    document? [] (tables.map tableSection) = some (tables.map tableField) := by
  let add (root : Fields) (s : Section) : Option Fields := changeAt? s.addTo? s.header.path root
  suffices hall : ∀ root : Fields, ((root ++ tables.map tableField).map (·.1)).Nodup →
      (tables.map tableSection).foldlM add root = some (root ++ tables.map tableField) by
    refine hall [] ?_
    rw [List.nil_append, List.map_map]
    exact hnames
  clear hnames
  induction tables with
  | nil =>
    intro root _
    rw [List.map_nil, List.map_nil, List.append_nil]
    rfl
  | cons t tables ih =>
    intro root hroot
    have hadd : add root (tableSection t) = some (root ++ [tableField t]) :=
      addTo?_tableSection (hfields t List.mem_cons_self) (lookup_eq_none_of_nodup hroot)
    rw [List.map_cons, List.append_cons] at hroot
    rw [List.map_cons (f := tableField), List.append_cons]
    calc ((t :: tables).map tableSection).foldlM add root
        = (add root (tableSection t)).bind fun root => (tables.map tableSection).foldlM add root :=
          rfl
      _ = (tables.map tableSection).foldlM add (root ++ [tableField t]) := by
          rw [hadd, Option.bind_some]
      _ = some (root ++ [tableField t] ++ tables.map tableField) :=
          ih (fun u hu => hfields u (List.mem_cons_of_mem t hu)) _ hroot

/-! ## Documents -/

/-- A text of some tables with empty lines between them. -/
inductive ReadsTables : List Char → List Named → Prop
  | last {cs : List Char} {table : Named} :
      ReadsLines cs (tableLines table) → ReadsTables cs [table]
  | cons {cs cs' : List Char} {table : Named} {tables : List Named} :
      ReadsLines cs (tableLines table) → ReadsTables cs' tables →
        ReadsTables (cs ++ '\n' :: cs') (table :: tables)

theorem ReadsTables.exists_lines {cs : List Char} {tables : List Named} (h : ReadsTables cs tables) :
    ∃ lines, ReadsLines cs lines ∧
      Reader.sections lines = ([], tables.map tableSection) := by
  induction h with
  | @last cs table hlines =>
    have hsections : Reader.sections (tableLines table ++ []) = ([], [tableSection table]) :=
      sections_tableLines table rfl
    rw [List.append_nil] at hsections
    exact ⟨_, hlines, hsections⟩
  | @cons cs cs' table tables hlines _ ih =>
    obtain ⟨lines, hrest, hsections⟩ := ih
    exact ⟨_, hlines.append (.cons readsLine_empty hrest), sections_tableLines table hsections⟩

/-- A text of tables is read as the tables. -/
theorem ReadsTables.read? {text : String} {tables : List Named}
    (h : ReadsTables text.toList tables) (hmark : text.toList.head? ≠ some '\uFEFF')
    (hnames : (tables.map (·.1)).Nodup) (hfields : ∀ t ∈ tables, (t.2.map (·.1)).Nodup) :
    Toml.read? text = some (tables.map tableField) := by
  obtain ⟨lines, hlines, hsections⟩ := h.exists_lines
  have hread := hlines.lines?
  unfold Toml.read?
  split
  · next heq =>
    rw [heq] at hmark
    exact absurd rfl hmark
  · simp [hread, hsections, document?_tableSections hnames hfields]

end WaterPeg.Toml
