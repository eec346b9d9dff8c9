/-!
TOML documents: values, tables, and which key may be set in which table. A table remembers how it
came about, because that decides how it may still be extended.
-/
namespace WaterPeg

/-- How a table came about. -/
inductive Toml.Origin
  /-- Named by a header of its own. -/
  | header
  /-- Passed through by the path of a header. -/
  | passed
  /-- Passed through by a dotted key. -/
  | dotted
  /-- Written between braces. -/
  | inline
deriving DecidableEq, Repr

inductive Toml
  | string (text : String)
  | integer (value : Int)
  | float
  | bool (value : Bool)
  /-- A date, a time or both. -/
  | moment
  | array (items : List Toml)
  | table (origin : Toml.Origin) (fields : List (String × Toml))
  /-- The tables of all headers in double brackets with one name. -/
  | tables (items : List (List (String × Toml)))

namespace Toml

abbrev Fields := List (String × Toml)

/-- The fields with the value of a key replaced, or with the key added at the end. -/
def put (fields : Fields) (key : String) (value : Toml) : Fields :=
  if (fields.lookup key).isSome then
    fields.map fun f => if f.1 == key then (key, value) else f
  else fields ++ [(key, value)]

def add? (fields : Fields) (key : String) (value : Toml) : Option Fields :=
  if (fields.lookup key).isSome then none else some (fields ++ [(key, value)])

def changeLast? (f : Fields → Option Fields) : List Fields → Option (List Fields)
  | [] => none
  | [t] => (f t).map fun t => [t]
  | t :: u :: ts => (changeLast? f (u :: ts)).map (t :: ·)

/-- Set a key by a path of dotted keys before it. The path makes the tables that are missing. It may
pass through tables that no header named, and through the latest of several tables; the table that
it ends at must have been made by dotted keys. -/
def addAt? (key : String) (value : Toml) : List String → Fields → Option Fields
  | [], fields => add? fields key value
  | p :: path, fields =>
    match fields.lookup p with
    | none => (addAt? key value path []).map fun sub => put fields p (.table .dotted sub)
    | some (.table .dotted sub) =>
      (addAt? key value path sub).map fun sub => put fields p (.table .dotted sub)
    | some (.table .passed sub) =>
      if path.isEmpty then none
      else (addAt? key value path sub).map fun sub => put fields p (.table .passed sub)
    | some (.tables items) =>
      if path.isEmpty then none
      else (changeLast? (addAt? key value path) items).map fun items => put fields p (.tables items)
    | _ => none

/-- Change the table that the path of a header leads to. The path makes the tables that are missing;
it does not lead into values. -/
def changeAt? (change : Fields → Option Fields) : List String → Fields → Option Fields
  | [], fields => change fields
  | p :: path, fields =>
    match fields.lookup p with
    | none => (changeAt? change path []).map fun sub => put fields p (.table .passed sub)
    | some (.table .inline _) => none
    | some (.table origin sub) =>
      (changeAt? change path sub).map fun sub => put fields p (.table origin sub)
    | some (.tables items) =>
      (changeLast? (changeAt? change path) items).map fun items => put fields p (.tables items)
    | _ => none

structure Pair where
  path : List String
  key : String
  value : Toml

def addAll? (fields : Fields) (pairs : List Pair) : Option Fields :=
  pairs.foldlM (fun fields p => addAt? p.key p.value p.path fields) fields

/-! ## Documents -/

/-- What opens a section: a name in brackets or in double brackets. -/
structure Header where
  path : List String
  name : String
  isRepeated : Bool

structure Section where
  header : Header
  pairs : List Pair

/-- Add a section to the table that holds it. A name in brackets is used once; the table may have
been passed through before. A name in double brackets adds one more table. -/
def Section.addTo? (s : Section) (parent : Fields) : Option Fields :=
  let name := s.header.name
  if s.header.isRepeated then
    match parent.lookup name with
    | none => (addAll? [] s.pairs).map fun t => put parent name (.tables [t])
    | some (.tables items) =>
      (addAll? [] s.pairs).map fun t => put parent name (.tables (items ++ [t]))
    | _ => none
  else
    match parent.lookup name with
    | none => (addAll? [] s.pairs).map fun t => put parent name (.table .header t)
    | some (.table .passed sub) =>
      (addAll? sub s.pairs).map fun t => put parent name (.table .header t)
    | _ => none

/-- The root table of a document: keys before the first header, and then sections. -/
def document? (pairs : List Pair) (sections : List Section) : Option Fields := do
  let root ← addAll? [] pairs
  sections.foldlM (fun root s => changeAt? s.addTo? s.header.path root) root

end Toml

end WaterPeg
