import WaterPeg.Oracle

/-! Issuing invites, sizing an issue by the turnout so far, and letting invites expire. -/
namespace WaterPeg.Oracle

def draft (o : Oracle) (count : Nat) (kind : MeasurementKind) (currency : Option String)
    (now blockHeight : UInt64) : List Invite :=
  let first := o.tables.nextSequence
  let stream := Invite.selection currency kind now (UInt64.ofNat first)
  (Invite.candidates o.directory currency count stream).1.mapIdx fun i user =>
    let sequence := UInt64.ofNat (first + i)
    { id := Invite.idOf user now sequence
      user
      kind
      currency
      createdAt := now
      expiresAt := UInt64.ofNatClamp (now.toNat + o.params.inviteExpiry.toNat)
      blockHeight
      sequence
      isUsed := false
      isExpired := false }

/-- Issue this many invites, or none if there is nobody to invite. -/
def issue (o : Oracle) (count : Nat) (kind : MeasurementKind) (currency : Option String)
    (now blockHeight : UInt64) : Outcome (List Invite) :=
  let invites := o.draft count kind currency now blockHeight
  if invites.isEmpty then (.ok [], o)
  else
    let turnout := (o.turnout ⟨currency, kind⟩).recordSent invites.length now
    match o.commit (invites.map .putInvite ++ [.putTurnout turnout]) invites with
    | (.error e, o) => (.error e, o)
    | (.ok invites, o) =>
      (.ok invites,
        { o with
          tables := { o.tables with nextSequence := o.tables.nextSequence + invites.length } })

/-- A currency is ready to be measured when it has enough native users, of which fewer are needed
below the bootstrap height, and, for exchange rates, enough coins. No currency is always ready. -/
def isReady (o : Oracle) (kind : MeasurementKind) (currency : Option String)
    (blockHeight : UInt64) : Bool :=
  match currency with
  | none => true
  | some c =>
    let needed :=
      if blockHeight < o.params.bootstrapHeight then o.params.bootstrapUsers else o.params.readyUsers
    needed.toNat ≤ (o.directory.native c).length
      && (!kind.isExchange || o.params.readySupply.toNat ≤ (o.directory.supply c).toNat)

/-- Issue the invites that let this many measurements be expected, once the currency is ready. -/
def issueForTarget (o : Oracle) (target : UInt64) (kind : MeasurementKind)
    (currency : Option String) (now blockHeight : UInt64) : Outcome (List Invite) :=
  if o.isReady kind currency blockHeight then
    let count := Invite.countFor target (o.turnout ⟨currency, kind⟩).rate o.params.minTurnout
      o.params.inviteOverhead
    o.issue count.toNat kind currency now blockHeight
  else (.ok [], o)

/-- Flag the open invites whose time is over, and count them. -/
def expireInvites (o : Oracle) (now : UInt64) : Outcome Nat :=
  let lapsed := o.tables.invites.values.filter fun i =>
    !i.isUsed && !i.isExpired && i.expiresAt ≤ now
  o.commit (lapsed.map fun i => .putInvite { i with isExpired := true }) lapsed.length

def isInviteValid (o : Oracle) (id : Digest) (now : UInt64) : Bool :=
  o.tables.invites[id]?.any fun i => i.isValidAt now

def invitesOf (o : Oracle) (user : String) : List Invite :=
  o.tables.invites.values.filter fun i => i.user == user

end WaterPeg.Oracle
