import WaterPeg.Json.Form
import WaterPeg.Order

/-! What the peg is told of a block. -/
namespace WaterPeg

structure Block where
  height : UInt64
  timestamp : UInt64
  hash : Digest
  /-- Money moved in the block, in minor units of each currency. -/
  volumes : Table String UInt128

namespace Block

/-- The volume in a currency; none was moved in a currency that is not listed. -/
def volume (b : Block) (currency : String) : UInt128 := b.volumes[currency]?.getD 0

def fields : List String := ["height", "timestamp", "block_hash", "currency_volumes"]

/-- The JSON form, with the currencies in ascending order. -/
def json (b : Block) : Json :=
  .record fields
    [toJson b.height, toJson b.timestamp, toJson b.hash,
      .object (b.volumes.toList.map fun v => (Json.quote v.1, toJson v.2))]

end Block

end WaterPeg
