import WaterPeg.Invite
import WaterPeg.Reading
import WaterPeg.Rollup
import WaterPeg.SourceUrl
import WaterPeg.Store
import WaterPeg.Turnout

/-!
What the oracle holds in memory, and the edits that change it. Each edit is at once a change of a
table and an entry of a store batch, so that memory and store move together.
-/
namespace WaterPeg

structure Tables where
  water : Table Digest (Reading WaterPrice)
  rates : Table Digest (Reading ExchangeRate)
  invites : Table Digest Invite
  turnouts : Table TurnoutKey Turnout
  rollups : Table DayKey Rollup
  urls : Table Digest SourceUrl
  /-- When the first observation of each currency was accepted. -/
  firstSeen : Table String UInt64
  /-- The place of the next invite in the order of issue. -/
  nextSequence : Nat

namespace Tables

def empty : Tables := ⟨∅, ∅, ∅, ∅, ∅, ∅, ∅, 0⟩

instance : Inhabited Tables := ⟨empty⟩

end Tables

inductive Edit
  | putWater (r : Reading WaterPrice)
  | putRate (r : Reading ExchangeRate)
  | putInvite (i : Invite)
  | putTurnout (t : Turnout)
  | putRollup (r : Rollup)
  | putUrl (u : SourceUrl)
  | putFirstSeen (currency : String) (time : UInt64)
  | dropWater (id : Digest)
  | dropRate (id : Digest)
  | dropInvite (id : Digest)

namespace Edit

/-- The entry of a store batch that makes the change. -/
def entry : Edit → Bytes × Option Bytes
  | putWater r => (RecordKind.waterPrice.key r.id.bytes, some (encode r))
  | putRate r => (RecordKind.exchangeRate.key r.id.bytes, some (encode r))
  | putInvite i => (RecordKind.invite.key i.id.bytes, some (encode i))
  | putTurnout t => (RecordKind.turnout.key t.key.storeId, some (encode t))
  | putRollup r => (RecordKind.rollup.key r.key.storeId, some (encode r))
  | putUrl u => (RecordKind.sourceUrl.key u.id.bytes, some (encode u))
  | putFirstSeen currency time =>
    (RecordKind.firstSeen.key (Bytes.ofString currency), some (encode (currency, time)))
  | dropWater id => (RecordKind.waterPrice.key id.bytes, none)
  | dropRate id => (RecordKind.exchangeRate.key id.bytes, none)
  | dropInvite id => (RecordKind.invite.key id.bytes, none)

end Edit

namespace Tables

def apply (t : Tables) : Edit → Tables
  | .putWater r => { t with water := t.water.insert r.id r }
  | .putRate r => { t with rates := t.rates.insert r.id r }
  | .putInvite i => { t with invites := t.invites.insert i.id i }
  | .putTurnout c => { t with turnouts := t.turnouts.insert c.key c }
  | .putRollup r => { t with rollups := t.rollups.insert r.key r }
  | .putUrl u => { t with urls := t.urls.insert u.id u }
  | .putFirstSeen currency time => { t with firstSeen := t.firstSeen.insert currency time }
  | .dropWater id => { t with water := t.water.erase id }
  | .dropRate id => { t with rates := t.rates.erase id }
  | .dropInvite id => { t with invites := t.invites.erase id }

/-! ## Loading -/

/-- The table of some records by their keys; of two with one key the later stays. -/
def index {κ α : Type} [Ord κ] [Std.TransOrd κ] (key : α → κ) (records : List α) : Table κ α :=
  records.foldl (fun t r => t.insert (key r) r) ∅

/-- The place after the latest invite that is left. -/
def sequenceAfter (invites : Table Digest Invite) : Nat :=
  invites.values.foldl (fun n i => max n (i.sequence.toNat + 1)) 0

def load (s : Store) : Except StoreError Tables := do
  let water ← s.records (Reading WaterPrice) .waterPrice
  let rates ← s.records (Reading ExchangeRate) .exchangeRate
  let invites := index Invite.id (← s.records Invite .invite)
  let turnouts ← s.records Turnout .turnout
  let rollups ← s.records Rollup .rollup
  let urls ← s.records SourceUrl .sourceUrl
  let firstSeen ← s.records (String × UInt64) .firstSeen
  .ok
    { water := index Reading.id water
      rates := index Reading.id rates
      invites
      turnouts := index Turnout.key turnouts
      rollups := index Rollup.key rollups
      urls := index SourceUrl.id urls
      firstSeen := firstSeen.foldl (fun t e => t.insert e.1 e.2) ∅
      nextSequence := sequenceAfter invites }

end Tables

/-! ## Windows -/

/-- The observation is stamped from `start` to `stop`, and is validated if only those count. -/
def Reading.counts {α : Type} (r : Reading α) (start stop : UInt64) (validatedOnly : Bool) : Bool :=
  start ≤ r.timestamp && r.timestamp ≤ stop && (!validatedOnly || r.isValidated)

namespace Tables

def waterPrices (t : Tables) (currency : String) (start stop : UInt64) (validatedOnly : Bool) :
    List UInt64 :=
  (t.water.values.filter fun r =>
    r.measured.currency == currency && r.counts start stop validatedOnly).map (·.measured.price)

def exchangeRates (t : Tables) (base quote : String) (start stop : UInt64) (validatedOnly : Bool) :
    List UInt64 :=
  (t.rates.values.filter fun r =>
    r.measured.base == base && r.measured.quote == quote
      && r.counts start stop validatedOnly).map (·.measured.rate)

def currenciesAt (t : Tables) (keep : UInt64 → Bool) : List String :=
  let water := (t.water.values.filter fun r => keep r.timestamp).map (·.measured.currency)
  let rates := (t.rates.values.filter fun r => keep r.timestamp).map (·.measured.base)
  ((∅ : Std.ExtTreeSet String).insertMany (water ++ rates)).toList

def currencies (t : Tables) : List String := t.currenciesAt fun _ => true

/-- The first moment of a window of days that ends now. -/
def windowStart (now days : UInt64) : UInt64 :=
  UInt64.ofNat (now.toNat - days.toNat * secondsPerDay)

end Tables

end WaterPeg
