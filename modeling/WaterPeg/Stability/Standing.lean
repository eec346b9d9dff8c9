import WaterPeg.Json.Form
import WaterPeg.Units

/-!
How a currency stands beside its peg. Fresh averages make it stable or unstable at once; how long it
has been unstable decides whether coins are issued, and a long silence makes it inactive.
-/
namespace WaterPeg

inductive Stability
  | stable
  | unstable
  | inactive
deriving DecidableEq, Repr

namespace Stability

def all : List Stability := [.stable, .unstable, .inactive]

def label : Stability → String
  | .stable => "stable"
  | .unstable => "unstable"
  | .inactive => "inactive"

def name : Stability → String
  | .stable => "Stable"
  | .unstable => "Unstable"
  | .inactive => "Inactive"

instance : JsonForm Stability where
  toJson s := .choice s.name
  ofJson? := Json.choice? all name

/-- The distance of an observed value from the expected one, in parts per million of the expected
one, at most the largest word. Nothing is far from zero. -/
def ratio (expected observed : UInt64) : UInt64 :=
  if expected = 0 then 0
  else UInt64.ofNatClamp (absDiff expected.toNat observed.toNat * ppm / expected.toNat)

end Stability

/-- What is known of a currency, in micro units. -/
structure Standing where
  currency : String
  /-- Price of a liter at the peg. -/
  expected : UInt64
  observed : UInt64
  exchangeRate : UInt64
  /-- Distance of the observed price from the expected one. -/
  ratio : UInt64
  status : Stability
  /-- The height at which it became unstable, while it is. -/
  unstableSince : Option UInt64
  /-- The height of the last fresh averages. -/
  lastCheck : UInt64
  /-- How often fresh averages came in. -/
  checkCount : UInt64
deriving DecidableEq

namespace Standing

def initial (currency : String) : Standing := ⟨currency, 0, 0, 0, 0, .stable, none, 0, 0⟩

/-- Take in fresh averages. A currency whose price is further off than the threshold is unstable,
since now unless it was so before; any other is stable. -/
def refresh (s : Standing) (threshold expected observed exchangeRate height : UInt64) : Standing :=
  let ratio := Stability.ratio expected observed
  let s :=
    { s with expected, observed, exchangeRate, ratio
             lastCheck := height
             checkCount := s.checkCount + 1 }
  if threshold < ratio then
    if s.status = .unstable then s
    else { s with status := .unstable, unstableSince := some height }
  else { s with status := .stable, unstableSince := none }

def retire (s : Standing) : Standing := { s with status := .inactive, unstableSince := none }

def hasPersisted (s : Standing) (height minBlocks : UInt64) : Bool :=
  match s.status, s.unstableSince with
  | .unstable, some since => minBlocks.toNat ≤ height.toNat - since.toNat
  | _, _ => false

/-- Without fresh averages for more than this many blocks. -/
def isStale (s : Standing) (height maxGap : UInt64) : Bool :=
  maxGap.toNat < height.toNat - s.lastCheck.toNat

def isOverdue (s : Standing) (height maxGap : UInt64) : Bool :=
  s.status ≠ .inactive && s.isStale height maxGap

def fields : List String :=
  ["currency", "expected_water_price_micro", "observed_water_price_micro",
    "observed_exchange_rate_micro", "stability_ratio_ppm", "status", "unstable_since_height",
    "last_check_height", "measurement_count"]

instance : JsonForm Standing where
  toJson s :=
    .record fields
      [toJson s.currency, toJson s.expected, toJson s.observed, toJson s.exchangeRate,
        toJson s.ratio, toJson s.status, toJson s.unstableSince, toJson s.lastCheck,
        toJson s.checkCount]
  ofJson? j :=
    match j.fields? fields with
    | some [currency, expected, observed, exchangeRate, ratio, status, unstableSince, lastCheck,
        checkCount] => do
      some
        { currency := ← Json.required? currency
          expected := ← Json.required? expected
          observed := ← Json.required? observed
          exchangeRate := ← Json.required? exchangeRate
          ratio := ← Json.required? ratio
          status := ← Json.required? status
          unstableSince := ← Json.optional? unstableSince
          lastCheck := ← Json.required? lastCheck
          checkCount := ← Json.required? checkCount }
    | _ => none

end Standing

end WaterPeg
