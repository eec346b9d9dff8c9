import WaterPeg.Order
import WaterPeg.Word

/-! Who may measure and be paid in each currency, and how much of each currency circulates. -/
namespace WaterPeg

/-- What the peg asks about people and money. The lists may hold users in any order, and twice. -/
structure Directory where
  /-- Users whose home currency this is. -/
  native : String → List String
  /-- Users of the regions around it. -/
  regional : String → List String
  /-- Everyone who may measure. -/
  everyone : List String
  /-- Circulating supply in minor units. -/
  supply : String → UInt128

/-- A fixed register of users, each currency's users in ascending order. -/
structure Roster where
  native : Table String (Std.ExtTreeSet String)
  regional : Table String (Std.ExtTreeSet String)
  supply : Table String UInt128

namespace Roster

def empty : Roster := ⟨∅, ∅, ∅⟩

def enlist (t : Table String (Std.ExtTreeSet String)) (currency user : String) :
    Table String (Std.ExtTreeSet String) :=
  t.insert currency ((t[currency]?.getD ∅).insert user)

def addNative (r : Roster) (currency user : String) : Roster :=
  { r with native := enlist r.native currency user }

def addRegional (r : Roster) (currency user : String) : Roster :=
  { r with regional := enlist r.regional currency user }

def setSupply (r : Roster) (currency : String) (amount : UInt128) : Roster :=
  { r with supply := r.supply.insert currency amount }

/-- Register this many native users, named for the currency and numbered from 0. -/
def addPopulation (r : Roster) (currency : String) (count : Nat) : Roster :=
  (List.range count).foldl (fun r i => r.addNative currency s!"{currency}_user_{i}") r

def users (t : Table String (Std.ExtTreeSet String)) (currency : String) : List String :=
  (t[currency]?.getD ∅).toList

def everyone (r : Roster) : Std.ExtTreeSet String :=
  (r.native.values ++ r.regional.values).foldl (fun all s => all.insertMany s.toList) ∅

def directory (r : Roster) : Directory where
  native := users r.native
  regional := users r.regional
  everyone := r.everyone.toList
  supply currency := r.supply[currency]?.getD 0

end Roster

end WaterPeg
