import WaterPeg.Json.Form
import WaterPeg.Order

/-!
The byte store that all records are written through to: an ordered map from keys to values, with
mutations that may fail. The key of a record is a byte for its kind and then its id.
-/
namespace WaterPeg

inductive RecordKind
  | waterPrice
  | exchangeRate
  | invite
  | sourceUrl
  | rollup
  | turnout
  | firstSeen
  | standing
  | payout
  | totals
deriving DecidableEq, Repr

namespace RecordKind

def tag : RecordKind → UInt8
  | .waterPrice => 0x77
  | .exchangeRate => 0x65
  | .invite => 0x69
  | .sourceUrl => 0x75
  | .rollup => 0x64
  | .turnout => 0x63
  | .firstSeen => 0x66
  | .standing => 0x73
  | .payout => 0x74
  | .totals => 0x6C

theorem tag_injective {a b : RecordKind} (h : a.tag = b.tag) : a = b := by
  revert h; cases a <;> cases b <;> decide

def all : List RecordKind :=
  [.waterPrice, .exchangeRate, .invite, .sourceUrl, .rollup, .turnout, .firstSeen, .standing,
    .payout, .totals]

def name : RecordKind → String
  | .waterPrice => "WaterPrice"
  | .exchangeRate => "ExchangeRate"
  | .invite => "Invite"
  | .sourceUrl => "ValidatedUrl"
  | .rollup => "DailyAverage"
  | .turnout => "ConversionRate"
  | .firstSeen => "CurrencyFirstSeen"
  | .standing => "StabilityStatus"
  | .payout => "StabilizationRecord"
  | .totals => "StabilizationTotals"

def key (kind : RecordKind) (id : Bytes) : Bytes := kind.tag :: id

theorem key_inj {a b : RecordKind} {x y : Bytes} : a.key x = b.key y ↔ a = b ∧ x = y := by
  constructor
  · intro h
    obtain ⟨ht, hx⟩ := List.cons.inj h
    exact ⟨tag_injective ht, hx⟩
  · rintro ⟨rfl, rfl⟩
    rfl

end RecordKind

inductive StoreError
  | diskFull
  | readFailed
  | malformed
deriving DecidableEq, Repr

def StoreError.name : StoreError → String
  | .diskFull | .readFailed => "Backend"
  | .malformed => "Codec"

def StoreError.message : StoreError → String
  | .diskFull => "storage backend error: disk full"
  | .readFailed => "storage backend error: io error"
  | .malformed => "record codec error"

/-- Mutations applied together, in order; `none` erases a key. -/
abbrev Batch := List (Bytes × Option Bytes)

/-- The entries of a store, and when it begins to fail. -/
structure Store where
  entries : Table Bytes Bytes
  /-- How many mutations still succeed; all do if there is no number. -/
  writesLeft : Option Nat
  readsFail : Bool

namespace Store

def empty : Store := ⟨∅, none, false⟩

instance : Inhabited Store := ⟨empty⟩

def applyEntry (entries : Table Bytes Bytes) (e : Bytes × Option Bytes) : Table Bytes Bytes :=
  match e with
  | (key, some value) => entries.insert key value
  | (key, none) => entries.erase key

/-- One mutation: it changes the entries and counts once, or fails and changes nothing. -/
def mutate (s : Store) (f : Table Bytes Bytes → Table Bytes Bytes) : Except StoreError Store :=
  match s.writesLeft with
  | none => .ok { s with entries := f s.entries }
  | some (n + 1) => .ok { s with entries := f s.entries, writesLeft := some n }
  | some 0 => .error .diskFull

def write (s : Store) (key value : Bytes) : Except StoreError Store :=
  s.mutate fun entries => entries.insert key value

def erase (s : Store) (key : Bytes) : Except StoreError Store :=
  s.mutate fun entries => entries.erase key

/-- All entries of a batch as one mutation. -/
def applyBatch (s : Store) (batch : Batch) : Except StoreError Store :=
  s.mutate fun entries => batch.foldl applyEntry entries

/-- The entries of a batch as a mutation each. -/
def applyEach (s : Store) (batch : Batch) : Except StoreError Store :=
  batch.foldlM
    (fun s e =>
      match e with
      | (key, some value) => s.write key value
      | (key, none) => s.erase key)
    s

def read? (s : Store) (key : Bytes) : Except StoreError (Option Bytes) :=
  if s.readsFail then .error .readFailed else .ok s.entries[key]?

/-- The entries whose keys begin with some bytes, by ascending key: from the first key that does not
come before those bytes on, as long as the keys begin with them. -/
def scan (s : Store) (start : Bytes) : Except StoreError (List (Bytes × Bytes)) :=
  if s.readsFail then .error .readFailed
  else
    .ok ((s.entries.toList.dropWhile fun e => (compare e.1 start).isLT).takeWhile
      fun e => start.isPrefixOf e.1)

def size (s : Store) : Nat := s.entries.size

/-! ## Records -/

/-- The records of a kind by ascending key, if all can be read. -/
def records (α : Type) [JsonForm α] (s : Store) (kind : RecordKind) :
    Except StoreError (List α) := do
  let found ← s.scan [kind.tag]
  found.mapM fun e =>
    match decode? e.2 with
    | some a => .ok a
    | none => .error .malformed

def record? (α : Type) [JsonForm α] (s : Store) (kind : RecordKind) (id : Bytes) :
    Except StoreError (Option α) := do
  match ← s.read? (kind.key id) with
  | none => .ok none
  | some b =>
    match decode? b with
    | some a => .ok (some a)
    | none => .error .malformed

end Store

end WaterPeg
