import WaterPeg.Config.File
import WaterPeg.Proofs.Json.Form
import WaterPeg.Proofs.Toml.Documents

/-!
A configuration that is saved to a file is loaded from it again. Words from `2 ^ 63` on cannot be
written, and saving fails for these only; amounts are written as text and survive at every size.
-/
namespace WaterPeg
open Toml

theorem Numeral.natural?_repr (n : Nat) : natural? n.repr = some n := by
  have hall : (Nat.toDigits 10 n).all Char.isDigit :=
    List.all_eq_true.2 fun c hc => isDigit_of_mem_toDigits hc
  unfold natural?
  rw [Nat.toList_repr]
  split
  · next heq =>
    have hsign : ('+').isDigit := isDigit_of_mem_toDigits (heq ▸ List.mem_cons_self)
    exact absurd hsign (by decide)
  · simp [Nat.toDigits_ne_nil, hall, Nat.ofDigitChars_ten_toDigits]

theorem Numeral.amount?_repr (v : UInt128) : amount? v.toNat.repr = some v := by
  simp [amount?, natural?_repr, UInt128.ofNat?_toNat]

/-! ## One parameter -/

namespace Setting

variable {σ : Type} (params : σ)

/-- The value that a parameter is written as. -/
def toml : Setting σ → Toml
  | word _ get _ => .integer (get params).toNat
  | amount _ get _ => .string (get params).toNat.repr
  | flag _ get _ => .bool (get params)

/-- Set a parameter to its value in other parameters. -/
def copy (target : σ) : Setting σ → σ
  | word _ get set => set target (get params)
  | amount _ get set => set target (get params)
  | flag _ get set => set target (get params)

def word? : Setting σ → Option UInt64
  | word _ get _ => some (get params)
  | amount _ _ _ | flag _ _ _ => none

theorem read?_toml (target : σ) (s : Setting σ) :
    s.read? target (s.toml params) = some (s.copy params target) := by
  cases s with
  | word name get set => simp [read?, toml, copy]
  | amount name get set => simp [read?, toml, copy, Numeral.amount?_repr]
  | flag name get set => rfl

theorem text?_word (name : String) (get : σ → UInt64) (set : σ → UInt64 → σ) :
    (word name get set).text? params =
      if (get params).toNat < 2 ^ 63 then some (get params).toNat.repr else none := by
  have hle : get params ≤ Int64.maxValue.toUInt64 ↔ (get params).toNat < 2 ^ 63 := by
    rw [UInt64.le_iff_toNat_le]
    exact Nat.lt_succ_iff.symm
  simp only [text?, hle]
  rfl

/-- A parameter cannot be written if it is a word that signed words do not hold. -/
theorem line?_eq_none_iff (s : Setting σ) :
    s.line? params = none ↔ ∃ w ∈ s.word? params, 2 ^ 63 ≤ w.toNat := by
  rw [line?, Option.map_eq_none_iff]
  cases s with
  | word name get set => simp [text?_word, word?]
  | amount name get set => simp [text?, word?]
  | flag name get set => simp [text?, word?]

theorem reads_text? {s : Setting σ} {text : String} (h : s.text? params = some text) :
    Reads text.toList (s.toml params) := by
  cases s with
  | word name get set =>
    rw [text?_word] at h
    split at h
    · next hlt =>
      rw [← Option.some.inj h, Nat.toList_repr]
      exact reads_integer hlt
    · exact nomatch h
  | amount name get set =>
    have hdigits : ∀ c ∈ Nat.toDigits 10 (get params).toNat, c.isDigit :=
      fun c hc => isDigit_of_mem_toDigits hc
    have hreads := reads_text hdigits Nat.toDigits_ne_nil
    rw [← Option.some.inj h]
    simpa [Nat.repr, toml] using hreads
  | flag name get set =>
    rw [← Option.some.inj h]
    exact reads_bool (get params)

def field (s : Setting σ) : String × Toml := (s.name, s.toml params)

theorem readsLine_line? {s : Setting σ} (hname : IsBareKey s.name.toList) {text : String}
    (h : s.line? params = some text) :
    ReadsLine text.toList (.pair (fieldPair (s.field params))) := by
  obtain ⟨value, hvalue, rfl⟩ := Option.map_eq_some_iff.1 h
  have hline := readsLine_pair hname (reads_text? params hvalue)
  rw [String.ofList_toList] at hline
  simpa [String.toList_append, field, fieldPair] using hline

theorem mapM_line?_eq_none_iff (settings : List (Setting σ)) :
    settings.mapM (line? params) = none ↔
      ∃ w ∈ settings.filterMap (word? params), 2 ^ 63 ≤ w.toNat := by
  induction settings with
  | nil => simp
  | cons s settings ih =>
    have hcons : (s :: settings).mapM (line? params) = none ↔
        s.line? params = none ∨ settings.mapM (line? params) = none := by
      rw [List.mapM_cons]
      cases s.line? params <;> cases settings.mapM (line? params) <;> simp
    rw [hcons, ih, line?_eq_none_iff, List.filterMap_cons]
    cases s.word? params <;> simp

theorem readsLines_mapM_line? {settings : List (Setting σ)}
    (hnames : ∀ s ∈ settings, IsBareKey s.name.toList) {texts : List String}
    (h : settings.mapM (line? params) = some texts) :
    ReadsLines (String.join texts).toList
      ((settings.map (field params)).map fun f => .pair (fieldPair f)) := by
  induction settings generalizing texts with
  | nil =>
    obtain rfl := Option.some.inj h
    exact .nil
  | cons s settings ih =>
    rw [List.mapM_cons] at h
    obtain ⟨text, htext, h⟩ := Option.bind_eq_some_iff.1 h
    obtain ⟨texts, htexts, h⟩ := Option.bind_eq_some_iff.1 h
    obtain rfl := Option.some.inj h
    have hline := readsLine_line? params (hnames s List.mem_cons_self) htext
    have hlines := ih (fun t ht => hnames t (List.mem_cons_of_mem s ht)) htexts
    simpa [String.toList_append] using ReadsLines.cons hline hlines

/-- Reading the values of parameters copies the parameters. -/
theorem readAll?_toml (target : σ) (settings : List (Setting σ)) :
    readAll? target (settings.map fun s => (s, some (s.toml params))) =
      some (settings.foldl (fun target s => s.copy params target) target) := by
  induction settings generalizing target with
  | nil => rfl
  | cons s settings ih =>
    calc readAll? target ((s :: settings).map fun s => (s, some (s.toml params)))
        = (s.read? target (s.toml params)).bind fun target =>
            readAll? target (settings.map fun s => (s, some (s.toml params))) := rfl
      _ = some (settings.foldl (fun target s => s.copy params target) (s.copy params target)) := by
          rw [read?_toml, Option.bind_some, ih]

end Setting

/-! ## All parameters -/

namespace Settings

variable {σ : Type} [Settings σ] (params : σ)

def words : List UInt64 := all.filterMap (Setting.word? params)

def fields : Fields := all.map (Setting.field params)

/-- Parameters under distinct names that need no quotes, which are all there is to a structure. -/
class Lawful (σ : Type) [Settings σ] : Prop where
  isBareKey_name : ∀ s ∈ all (σ := σ), IsBareKey s.name.toList
  nodup_names : ((all (σ := σ)).map Setting.name).Nodup
  copy_all (params target : σ) : all.foldl (fun target s => s.copy params target) target = params

instance : Lawful MeasurementParams where
  isBareKey_name := by decide +kernel
  nodup_names := by decide +kernel
  copy_all _ _ := by simp only [all, List.foldl_cons, List.foldl_nil, Setting.copy]

instance : Lawful TargetParams where
  isBareKey_name := by decide +kernel
  nodup_names := by decide +kernel
  copy_all _ _ := by simp only [all, List.foldl_cons, List.foldl_nil, Setting.copy]

instance : Lawful StabilityParams where
  isBareKey_name := by decide +kernel
  nodup_names := by decide +kernel
  copy_all _ _ := by simp only [all, List.foldl_cons, List.foldl_nil, Setting.copy]

theorem table?_eq_none_iff (name : String) :
    table? name params = none ↔ ∃ w ∈ words params, 2 ^ 63 ≤ w.toNat := by
  rw [words, ← Setting.mapM_line?_eq_none_iff]
  unfold table?
  cases all.mapM (fun s : Setting σ => s.line? params) <;> simp

theorem head?_table? {name text : String} (h : table? name params = some text) :
    text.toList.head? = some '[' := by
  obtain ⟨texts, -, h⟩ := Option.bind_eq_some_iff.1 h
  obtain rfl := Option.some.inj h
  simp [String.toList_append]

variable [Lawful σ]

theorem nodup_fields : ((fields params).map (·.1)).Nodup := by
  rw [fields, List.map_map]
  exact Lawful.nodup_names

theorem readsLines_table? {name text : String} (hname : IsBareKey name.toList)
    (h : table? name params = some text) :
    ReadsLines text.toList (tableLines (name, fields params)) := by
  obtain ⟨texts, htexts, h⟩ := Option.bind_eq_some_iff.1 h
  obtain rfl := Option.some.inj h
  have hheader := readsLine_header hname
  rw [String.ofList_toList] at hheader
  have hlines := Setting.readsLines_mapM_line? params Lawful.isBareKey_name htexts
  simpa [String.toList_append, tableLines, fields] using ReadsLines.cons hheader hlines

/-- The fields of parameters are read as the parameters, whatever the defaults are. -/
theorem read?_fields (defaults : σ) :
    read? defaults (some (.table .header (fields params))) = some params := by
  let settings := all (σ := σ)
  have hvalues : (settings.map Setting.name).map (fun n => (fields params).lookup n) =
      settings.map fun s => some (s.toml params) := by
    have hlength : (settings.map fun s => s.toml params).length =
        (settings.map Setting.name).length := by simp
    have hlookup := Json.map_lookup_zip Lawful.nodup_names hlength
    rw [List.zip_map'] at hlookup
    exact hlookup.trans List.map_map
  have hzip : settings.zip (settings.map fun s => some (s.toml params)) =
      settings.map fun s => (s, some (s.toml params)) := by
    simpa using List.zip_map' (f := id) (g := fun s => some (s.toml params)) (l := settings)
  calc read? defaults (some (.table .header (fields params)))
      = Setting.readAll? defaults (settings.zip
          ((settings.map Setting.name).map fun n => (fields params).lookup n)) := rfl
    _ = some params := by rw [hvalues, hzip, Setting.readAll?_toml, Lawful.copy_all]

end Settings

namespace Config

variable (c : Config)

def words : List UInt64 :=
  let m := c.measurement
  let t := c.targets
  let s := c.stabilization
  [ m.inviteExpiry, m.minValidators, m.averagingWidth, m.acceptanceWidth, m.minSignificantSamples,
    m.acceptanceWindowDays, m.zeroVarianceTolerance, m.offlineTolerance, m.maxFutureDrift,
    m.minVolume, m.maxVolume, m.maxValue, m.defaultTurnout, m.minTurnout, m.inviteOverhead,
    m.minUrlReliability, m.dailyTolerance, m.readyUsers, m.bootstrapUsers, m.bootstrapHeight,
    t.minDaily, t.maxDaily, t.earlyTarget, t.earlyDays, t.volatileTarget, t.stableTarget,
    t.volatileVariation, t.stableVariation, t.windowDays,
    s.threshold, s.unstableBlocks, s.inactiveBlocks, s.coinFactor, s.minRecipients,
    s.maxRecipients, s.waterWindowDays, s.exchangeWindowDays ]

theorem words_eq_append : c.words =
    Settings.words c.measurement ++ Settings.words c.targets ++ Settings.words c.stabilization := rfl

def tables : List Named :=
  [ ("measurement", Settings.fields c.measurement), ("targets", Settings.fields c.targets),
    ("stabilization", Settings.fields c.stabilization) ]

theorem ofToml?_tables : ofToml? (c.tables.map tableField) = some c := by
  have hmeasurement : (c.tables.map tableField).lookup "measurement" =
      some (.table .header (Settings.fields c.measurement)) := rfl
  have htargets : (c.tables.map tableField).lookup "targets" =
      some (.table .header (Settings.fields c.targets)) := rfl
  have hstabilization : (c.tables.map tableField).lookup "stabilization" =
      some (.table .header (Settings.fields c.stabilization)) := rfl
  simp [ofToml?, hmeasurement, htargets, hstabilization, Settings.read?_fields]

theorem fileText_cases :
    ((Settings.table? "measurement" c.measurement = none ∨
        Settings.table? "targets" c.targets = none ∨
        Settings.table? "stabilization" c.stabilization = none) ∧
      c.fileText = .error .unwritable) ∨
    ∃ m t s, Settings.table? "measurement" c.measurement = some m ∧
      Settings.table? "targets" c.targets = some t ∧
      Settings.table? "stabilization" c.stabilization = some s ∧
      c.fileText = .ok (m ++ "\n" ++ t ++ "\n" ++ s) := by
  unfold fileText
  cases Settings.table? "measurement" c.measurement <;>
    cases Settings.table? "targets" c.targets <;>
    cases Settings.table? "stabilization" c.stabilization <;> simp

theorem fileText_eq_error_iff :
    c.fileText = .error .unwritable ↔ ∃ w ∈ c.words, 2 ^ 63 ≤ w.toNat := by
  have hwords : (∃ w ∈ c.words, 2 ^ 63 ≤ w.toNat) ↔
      Settings.table? "measurement" c.measurement = none ∨
        Settings.table? "targets" c.targets = none ∨
        Settings.table? "stabilization" c.stabilization = none := by
    simp only [Settings.table?_eq_none_iff, words_eq_append, List.mem_append, or_and_right,
      exists_or, or_assoc]
  rw [hwords]
  rcases fileText_cases c with ⟨hnone, htext⟩ | ⟨m, t, s, hm, ht, hs, htext⟩
  · exact iff_of_true htext hnone
  · rw [htext, hm, ht, hs]
    exact iff_of_false nofun (by simp)

theorem read?_fileText {text : String} (h : c.fileText = .ok text) :
    Toml.read? text = some (c.tables.map tableField) := by
  rcases fileText_cases c with ⟨-, htext⟩ | ⟨m, t, s, hm, ht, hs, htext⟩
  · exact nomatch h.symm.trans htext
  obtain rfl := Except.ok.inj (h.symm.trans htext)
  have hfirst := Settings.head?_table? c.measurement hm
  have hmark : (m ++ "\n" ++ t ++ "\n" ++ s).toList.head? ≠ some '\uFEFF' := by
    simp [String.toList_append, List.head?_append, hfirst]
  have htables : ReadsTables (m ++ "\n" ++ t ++ "\n" ++ s).toList c.tables := by
    simpa [String.toList_append, tables] using
      ReadsTables.cons (Settings.readsLines_table? c.measurement (by decide +kernel) hm) <|
      .cons (Settings.readsLines_table? c.targets (by decide +kernel) ht) <|
      .last (Settings.readsLines_table? c.stabilization (by decide +kernel) hs)
  refine htables.read? hmark (by simp [tables]) ?_
  intro table htable
  simp only [tables, List.mem_cons, List.not_mem_nil, or_false] at htable
  rcases htable with rfl | rfl | rfl <;> exact Settings.nodup_fields _

theorem ofFile_of_fileText {text : String} (h : c.fileText = .ok text) :
    ofFile (some (Bytes.ofString text)) = c.checked := by
  simp [ofFile, read?_fileText c h, ofToml?_tables]

/-- A configuration cannot be saved if one of its words is above all signed words. Otherwise it is
loaded again if it breaks no rule, and refused for the rule that it breaks. -/
theorem ofFile_fileText :
    (c.fileText = .error .unwritable ↔ ∃ w ∈ c.words, 2 ^ 63 ≤ w.toNat) ∧
      ((∀ w ∈ c.words, w.toNat < 2 ^ 63) → ∃ text, c.fileText = .ok text ∧
        (c.fault? = none → ofFile (some (Bytes.ofString text)) = .ok c) ∧
        ∀ fault, c.fault? = some fault →
          ofFile (some (Bytes.ofString text)) = .error (.invalid fault)) := by
  refine ⟨fileText_eq_error_iff c, fun hwords => ?_⟩
  rcases fileText_cases c with ⟨-, htext⟩ | ⟨m, t, s, -, -, -, htext⟩
  · obtain ⟨w, hw, hlarge⟩ := (fileText_eq_error_iff c).1 htext
    exact absurd (hwords w hw) (Nat.not_lt.2 hlarge)
  · refine ⟨_, htext, fun hfault => ?_, fun fault hfault => ?_⟩
    · rw [ofFile_of_fileText c htext, checked, hfault]
    · rw [ofFile_of_fileText c htext, checked, hfault]

def largestReward : Config := { stabilization := { maxReward := .ofNat (2 ^ 128 - 1) } }

theorem ofFile_fileText_largestReward :
    ∃ text, largestReward.fileText = .ok text ∧
      ofFile (some (Bytes.ofString text)) = .ok largestReward := by
  have hwords : ∀ w ∈ largestReward.words, w.toNat < 2 ^ 63 := by simp [words, largestReward]
  obtain ⟨text, htext, hload, -⟩ := (ofFile_fileText largestReward).2 hwords
  exact ⟨text, htext, hload (by decide +kernel)⟩

end Config

end WaterPeg
