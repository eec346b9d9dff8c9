import WaterPeg.Directory
import WaterPeg.Json.Form
import WaterPeg.Random
import WaterPeg.Units

/-! Invites to measure: whom they go to, how many are sent, and how they are named. -/
namespace WaterPeg

/-- An invite may be answered once, by its user, before it expires. -/
structure Invite where
  id : Digest
  user : String
  kind : MeasurementKind
  /-- The currency it is bound to, if it is bound to one. -/
  currency : Option String
  createdAt : UInt64
  expiresAt : UInt64
  blockHeight : UInt64
  /-- Its place in the order of issue. -/
  sequence : UInt64
  isUsed : Bool
  isExpired : Bool
deriving DecidableEq

namespace Invite

def isValidAt (i : Invite) (now : UInt64) : Bool := !i.isUsed && !i.isExpired && now < i.expiresAt

def preimage (user : String) (createdAt sequence : UInt64) : Bytes :=
  Bytes.ofString "OPEG_INVITE_V1" ++ Bytes.framed (Bytes.ofString user) ++ Bytes.ofWord createdAt
    ++ Bytes.ofWord sequence

def idOf (user : String) (createdAt sequence : UInt64) : Digest :=
  sha3 (preimage user createdAt sequence)

/-! ## Whom invites go to -/

/-- The stream from which the users of one issue are drawn. -/
def selection (currency : Option String) (kind : MeasurementKind) (now sequence : UInt64) :
    RandomStream :=
  .ofParts (Bytes.ofString "OPEG_INVITE_SELECT_V1")
    [Bytes.ofString (currency.getD ""), [kind.tag], Bytes.ofWord now, Bytes.ofWord sequence]

/-- The items that are not in `seen`, each where it first occurs. -/
def firstOccurrences (seen : Std.ExtTreeSet String) : List String → List String
  | [] => []
  | u :: us =>
    if seen.contains u then firstOccurrences seen us
    else u :: firstOccurrences (seen.insert u) us

def sorted (users : List String) : List String := users.mergeSort fun a b => a ≤ b

/-- Draw `count` users: natives first, then those of the region, then everyone, each tier in random
order and without those who came before. When all are drawn the round begins again. -/
def candidates (d : Directory) (currency : Option String) (count : Nat) (s : RandomStream) :
    List String × RandomStream :=
  if count = 0 then ([], s)
  else
    let (native, s) := s.shuffle (sorted ((currency.map d.native).getD []))
    let (regional, s) := s.shuffle (sorted ((currency.map d.regional).getD []))
    let (general, s) := s.shuffle (sorted d.everyone)
    let pool := (firstOccurrences ∅ (native ++ (regional ++ general))).toArray
    ((List.range count).filterMap fun i => pool[i % pool.size]?, s)

/-! ## How many invites are sent -/

/-- Invites to send so that `target` of them can be expected to be answered: the target over the
turnout, and the overhead on top, but never fewer than the target or more than ten times as many. The
products are of 128 bits, and the count is cut to 64. -/
def countFor (target turnout minTurnout overhead : UInt64) : UInt64 :=
  if target = 0 then 0
  else
    let rate := max (max turnout minTurnout) 1
    let needed := (UInt128.ofWord target * .ofNat ppm).ceilDiv (.ofWord rate)
    let padded := (needed * .ofWord overhead).ceilDiv 100
    let most := UInt128.ofWord target * 10
    UInt64.ofNat (max target.toNat (min padded.toNat most.toNat))

/-! ## Stored form -/

def fields : List String :=
  ["id", "invited_user", "measurement_type", "currency", "created_at", "expires_at",
    "block_height", "sequence", "is_used", "is_expired"]

instance : JsonForm Invite where
  toJson i :=
    .record fields
      [toJson i.id, toJson i.user, toJson i.kind, toJson i.currency, toJson i.createdAt,
        toJson i.expiresAt, toJson i.blockHeight, toJson i.sequence, toJson i.isUsed,
        toJson i.isExpired]
  ofJson? j :=
    match j.fields? fields with
    | some [id, user, kind, currency, createdAt, expiresAt, blockHeight, sequence, isUsed,
        isExpired] => do
      some
        { id := ← Json.required? id
          user := ← Json.required? user
          kind := ← Json.required? kind
          currency := ← Json.optional? currency
          createdAt := ← Json.required? createdAt
          expiresAt := ← Json.required? expiresAt
          blockHeight := ← Json.required? blockHeight
          sequence := ← Json.required? sequence
          isUsed := ← Json.required? isUsed
          isExpired := ← Json.required? isExpired }
    | _ => none

end Invite

end WaterPeg
