import WaterPeg.Bytes
import WaterPeg.Config.Numeral
import WaterPeg.Config.Settings
import WaterPeg.Toml.Reader

/-!
The configuration as a TOML file of three tables. What a file leaves out has its default, and what no
setting is named after is passed over. A table may also be given as an array of its settings in order.
-/
namespace WaterPeg

/-! ## Reading -/

namespace Setting

/-- Set a parameter to a value of its type. Amounts may also be written as text. -/
def read? {σ : Type} (params : σ) (value : Toml) : Setting σ → Option σ
  | word _ _ set =>
    match value with
    | .integer (.ofNat n) => some (set params (UInt64.ofNat n))
    | _ => none
  | amount _ _ set =>
    match value with
    | .integer (.ofNat n) => some (set params (UInt128.ofNat n))
    | .string s => (Numeral.amount? s).map (set params)
    | _ => none
  | flag _ _ set =>
    match value with
    | .bool b => some (set params b)
    | _ => none

def readAll? {σ : Type} (params : σ) (values : List (Setting σ × Option Toml)) : Option σ :=
  values.foldlM
    (fun params (s, value) =>
      match value with
      | some value => s.read? params value
      | none => some params)
    params

end Setting

/-- The values of some names in a table, or in an array by their order. A date or time, which counts
as a table of its own, gives none. -/
def Toml.valuesOf? (names : List String) : Toml → Option (List (Option Toml))
  | .table _ fields => some (names.map fun n => fields.lookup n)
  | .array items => some ((List.range names.length).map fun i => items[i]?)
  | .tables items => some ((List.range names.length).map fun i => items[i]?.map (.table .header))
  | .moment => some (names.map fun _ => none)
  | _ => none

def Settings.read? {σ : Type} [Settings σ] (defaults : σ) : Option Toml → Option σ
  | none => some defaults
  | some value => do
    let settings := Settings.all (σ := σ)
    let values ← value.valuesOf? (settings.map Setting.name)
    Setting.readAll? defaults (settings.zip values)

namespace Config

def ofToml? (root : Toml.Fields) : Option Config := do
  some
    { measurement := ← Settings.read? {} (root.lookup "measurement")
      targets := ← Settings.read? {} (root.lookup "targets")
      stabilization := ← Settings.read? {} (root.lookup "stabilization") }

def ofFile (content : Option Bytes) : Except ConfigError Config :=
  match content >>= Bytes.text? with
  | none => .error .unreadable
  | some text =>
    match Toml.read? text >>= ofToml? with
    | none => .error .syntaxError
    | some config => config.checked

end Config

/-! ## Writing -/

namespace Setting

/-- A parameter in the form in which it is written. TOML has integers below `2 ^ 63` only; amounts are
written as text. -/
def text? {σ : Type} (params : σ) : Setting σ → Option String
  | word _ get _ =>
    let w := get params
    if w ≤ Int64.maxValue.toUInt64 then some (toString w.toNat) else none
  | amount _ get _ => some ("\"" ++ toString (get params).toNat ++ "\"")
  | flag _ get _ => some (if get params then "true" else "false")

def line? {σ : Type} (params : σ) (s : Setting σ) : Option String :=
  (s.text? params).map fun value => s.name ++ " = " ++ value ++ "\n"

end Setting

def Settings.table? {σ : Type} [Settings σ] (name : String) (params : σ) : Option String := do
  let lines ← (Settings.all (σ := σ)).mapM fun s => s.line? params
  some ("[" ++ name ++ "]\n" ++ String.join lines)

namespace Config

def fileText (c : Config) : Except ConfigError String :=
  let text? : Option String := do
    let measurement ← Settings.table? "measurement" c.measurement
    let targets ← Settings.table? "targets" c.targets
    let stabilization ← Settings.table? "stabilization" c.stabilization
    some (measurement ++ "\n" ++ targets ++ "\n" ++ stabilization)
  match text? with
  | some text => .ok text
  | none => .error .unwritable

end Config

end WaterPeg
