import WaterPeg.Digest.Sha3

/-!
A stream of random words that everyone derives from the same seed. Block `i` of the stream is the
digest of the seed followed by `i`; each block holds four words.
-/
namespace WaterPeg

/-- A position in the stream: the block being read, and how many of its bytes are used up. -/
structure RandomStream where
  seed : Digest
  /-- Index of the next block. -/
  counter : Nat
  block : Digest
  offset : Nat

namespace RandomStream

def ofSeed (seed : Digest) : RandomStream := ⟨seed, 0, .zero, 32⟩

/-- What the seed of a selection is the digest of: a domain name, then each part with its length. -/
def seedPreimage (domain : Bytes) (parts : List Bytes) : Bytes :=
  domain ++ parts.flatMap Bytes.framed

def ofParts (domain : Bytes) (parts : List Bytes) : RandomStream :=
  ofSeed (sha3 (seedPreimage domain parts))

def blockAt (seed : Digest) (i : Nat) : Digest := sha3 (seed.bytes ++ Bytes.littleEndian 8 i)

/-- The stream with at least one unread word in its block. -/
def refill (s : RandomStream) : RandomStream :=
  if s.offset + 8 > 32 then
    { s with counter := s.counter + 1, block := blockAt s.seed s.counter, offset := 0 }
  else s

def next (s : RandomStream) : UInt64 × RandomStream :=
  let s := s.refill
  (UInt64.ofNat (Bytes.ofLittleEndian ((s.block.bytes.drop s.offset).take 8)),
    { s with offset := s.offset + 8 })

def words : Nat → RandomStream → List UInt64 × RandomStream
  | 0, s => ([], s)
  | n + 1, s =>
    let (w, s) := s.next
    let (ws, s) := words n s
    (w :: ws, s)

/-- Words not read yet: a stream has `2 ^ 64` blocks. -/
def wordsLeft (s : RandomStream) : Nat := 4 * (UInt64.size - s.counter) + (32 - s.offset) / 8

/-- Words below the zone of a bound are spread evenly over its residues. -/
def zone (bound : UInt64) : UInt64 := 0xFFFFFFFFFFFFFFFF - 0xFFFFFFFFFFFFFFFF % bound

/-- The first of the next `limit` words that lies in the zone, reduced by the bound. -/
def firstInZone (bound : UInt64) : Nat → RandomStream → UInt64 × RandomStream
  | 0, s => (0, s)
  | limit + 1, s =>
    let (w, s) := s.next
    if w < zone bound then (w % bound, s) else firstInZone bound limit s

/-- A number below the bound, each as likely as the others; 0, without a draw, below 0. -/
def below (s : RandomStream) (bound : UInt64) : UInt64 × RandomStream :=
  if bound = 0 then (0, s) else firstInZone bound s.wordsLeft s

/-- Exchange the item at `i`, then at `i - 1`, down to 1, with one at or before it. -/
def shuffleFrom {α : Type} : Nat → Array α → RandomStream → Array α × RandomStream
  | 0, xs, s => (xs, s)
  | i + 1, xs, s =>
    let (j, s) := s.below (UInt64.ofNat (i + 2))
    shuffleFrom i (xs.swapIfInBounds (i + 1) j.toNat) s

def shuffle {α : Type} (s : RandomStream) (items : List α) : List α × RandomStream :=
  let xs := items.toArray
  let (xs, s) := shuffleFrom (xs.size - 1) xs s
  (xs.toList, s)

end RandomStream

end WaterPeg
