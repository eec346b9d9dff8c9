import WaterPeg.Config
import WaterPeg.Directory
import WaterPeg.Oracle.Refusal
import WaterPeg.Oracle.Tables

/-!
The oracle: it invites users to measure, accepts their observations and averages them. All it knows
is in its tables, and every change goes to the store as one batch before the tables change.
-/
namespace WaterPeg

structure Oracle where
  store : Store
  directory : Directory
  params : MeasurementParams
  targets : TargetParams
  tables : Tables

namespace Oracle

/-- What an operation gives, and the oracle after it. -/
abbrev Outcome (α : Type) := Except OracleError α × Oracle

def begin? (store : Store) (directory : Directory) (config : Config) :
    Except StoreError Oracle := do
  let tables ← Tables.load store
  .ok { store, directory, params := config.measurement, targets := config.targets, tables }

/-- Make some changes in the store and in memory, or none if the store fails. No changes are made
without asking the store. -/
def commit {α : Type} (o : Oracle) (edits : List Edit) (result : α) : Outcome α :=
  if edits.isEmpty then (.ok result, o)
  else
    match o.store.applyBatch (edits.map Edit.entry) with
    | .error e => (.error (.store e), o)
    | .ok store => (.ok result, { o with store, tables := edits.foldl Tables.apply o.tables })

/-- The turnout under a key, or the one that a key begins with. -/
def turnout (o : Oracle) (key : TurnoutKey) : Turnout :=
  o.tables.turnouts[key]?.getD (.initial key o.params.defaultTurnout)

end Oracle

end WaterPeg
