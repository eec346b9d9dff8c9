import WaterPeg.Json.Form
import WaterPeg.Units

/-! How many invites of a kind led to an observation. The rate sizes the next invites. -/
namespace WaterPeg

/-- The invites that are counted together: those of a kind for a currency, or for none. -/
structure TurnoutKey where
  currency : Option String
  kind : MeasurementKind
deriving DecidableEq

namespace TurnoutKey

instance : Ord TurnoutKey := ⟨compareLex (compareOn currency) (compareOn fun k => k.kind.tag)⟩

instance : Std.TransOrd TurnoutKey :=
  inferInstanceAs
    (Std.TransCmp (compareLex (compareOn currency) (compareOn fun k => k.kind.tag)))

instance : Std.LawfulEqOrd TurnoutKey :=
  lawfulEqCmp_compareLex currency (fun k => k.kind.tag) fun a b hc hk => by
    have hk := MeasurementKind.tag_injective hk
    cases a; cases b
    simp_all

/-- The tag of the kind, then the currency code, which is empty for no currency. -/
def storeId (k : TurnoutKey) : Bytes := k.kind.tag :: Bytes.ofString (k.currency.getD "")

def fields : List String := ["currency", "measurement_type"]

instance : JsonForm TurnoutKey where
  toJson k := .record fields [toJson k.currency, toJson k.kind]
  ofJson? j :=
    match j.fields? fields with
    | some [currency, kind] => do
      some { currency := ← Json.optional? currency, kind := ← Json.required? kind }
    | _ => none

end TurnoutKey

/-- Counts over the lifetime of the records, and the rate they give. -/
structure Turnout where
  key : TurnoutKey
  sent : UInt64
  completed : UInt64
  /-- Completed over sent in parts per million; the default until the first invite. -/
  rate : UInt64
  lastUpdated : UInt64
deriving DecidableEq

namespace Turnout

def initial (key : TurnoutKey) (defaultRate : UInt64) : Turnout := ⟨key, 0, 0, defaultRate, 0⟩

/-- The record with its rate brought up to date; the rate is one at most. -/
def refresh (t : Turnout) (now : UInt64) : Turnout :=
  { t with
    rate :=
      if t.sent = 0 then t.rate
      else UInt64.ofNat (min (t.completed.toNat * ppm / t.sent.toNat) ppm)
    lastUpdated := now }

def recordSent (t : Turnout) (count : Nat) (now : UInt64) : Turnout :=
  { t with sent := UInt64.ofNatClamp (t.sent.toNat + count) }.refresh now

def recordCompleted (t : Turnout) (now : UInt64) : Turnout :=
  { t with completed := UInt64.ofNatClamp (t.completed.toNat + 1) }.refresh now

def fields : List String :=
  ["key", "invites_sent", "measurements_completed", "rate_ppm", "last_updated"]

instance : JsonForm Turnout where
  toJson t :=
    .record fields
      [toJson t.key, toJson t.sent, toJson t.completed, toJson t.rate, toJson t.lastUpdated]
  ofJson? j :=
    match j.fields? fields with
    | some [key, sent, completed, rate, lastUpdated] => do
      some
        { key := ← Json.required? key
          sent := ← Json.required? sent
          completed := ← Json.required? completed
          rate := ← Json.required? rate
          lastUpdated := ← Json.required? lastUpdated }
    | _ => none

end Turnout

end WaterPeg
