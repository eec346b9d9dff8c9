import WaterPeg.Directory
import WaterPeg.Random

/-! Who is rewarded: users of other, stable currencies, drawn by the hash of the block. -/
namespace WaterPeg.Recipients

/-- The native users of some currencies except one, each once and in ascending order. -/
def pool (d : Directory) (currencies : List String) (except : String) : List String :=
  ((∅ : Std.ExtTreeSet String).insertMany
    ((currencies.filter (· ≠ except)).flatMap d.native)).toList

def stream (blockHash : Digest) (currency : String) : RandomStream :=
  .ofParts (Bytes.ofString "OPEG_STAB_SELECT_V1") [blockHash.bytes, Bytes.ofString currency]

/-- Up to `count` users of a pool, in random order. -/
def select (pool : List String) (count : Nat) (blockHash : Digest) (currency : String) :
    List String :=
  if pool.isEmpty || count == 0 then []
  else ((stream blockHash currency).shuffle pool).1.take count

end WaterPeg.Recipients
