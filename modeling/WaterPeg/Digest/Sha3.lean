import WaterPeg.Digest

/-! SHA3-256: the Keccak permutation on five planes of five lanes, and the sponge over it. -/
namespace WaterPeg.Keccak

/-- The five lanes of one `y`. -/
structure Plane where
  x0 : UInt64
  x1 : UInt64
  x2 : UInt64
  x3 : UInt64
  x4 : UInt64

/-- The five planes, `y` from 0 to 4. -/
structure State where
  y0 : Plane
  y1 : Plane
  y2 : Plane
  y3 : Plane
  y4 : Plane

@[inline] def rotateLeft (w : UInt64) (n : UInt64) : UInt64 := (w <<< n) ||| (w >>> (64 - n))

@[inline] def Plane.xor (a b : Plane) : Plane :=
  ⟨a.x0 ^^^ b.x0, a.x1 ^^^ b.x1, a.x2 ^^^ b.x2, a.x3 ^^^ b.x3, a.x4 ^^^ b.x4⟩

def State.xor (s t : State) : State :=
  ⟨s.y0.xor t.y0, s.y1.xor t.y1, s.y2.xor t.y2, s.y3.xor t.y3, s.y4.xor t.y4⟩

/-- Add to each lane the parities of the two neighbouring columns. -/
@[inline] def theta (s : State) : State :=
  let c := (((s.y0.xor s.y1).xor s.y2).xor s.y3).xor s.y4
  let d : Plane :=
    ⟨c.x4 ^^^ rotateLeft c.x1 1, c.x0 ^^^ rotateLeft c.x2 1, c.x1 ^^^ rotateLeft c.x3 1,
      c.x2 ^^^ rotateLeft c.x4 1, c.x3 ^^^ rotateLeft c.x0 1⟩
  ⟨s.y0.xor d, s.y1.xor d, s.y2.xor d, s.y3.xor d, s.y4.xor d⟩

/-- Rotate each lane by its offset and move lane `(x, y)` to `(y, 2x + 3y)`. -/
@[inline] def rhoPi (s : State) : State where
  y0 := ⟨s.y0.x0, rotateLeft s.y1.x1 44, rotateLeft s.y2.x2 43, rotateLeft s.y3.x3 21,
    rotateLeft s.y4.x4 14⟩
  y1 := ⟨rotateLeft s.y0.x3 28, rotateLeft s.y1.x4 20, rotateLeft s.y2.x0 3,
    rotateLeft s.y3.x1 45, rotateLeft s.y4.x2 61⟩
  y2 := ⟨rotateLeft s.y0.x1 1, rotateLeft s.y1.x2 6, rotateLeft s.y2.x3 25,
    rotateLeft s.y3.x4 8, rotateLeft s.y4.x0 18⟩
  y3 := ⟨rotateLeft s.y0.x4 27, rotateLeft s.y1.x0 36, rotateLeft s.y2.x1 10,
    rotateLeft s.y3.x2 15, rotateLeft s.y4.x3 56⟩
  y4 := ⟨rotateLeft s.y0.x2 62, rotateLeft s.y1.x3 55, rotateLeft s.y2.x4 39,
    rotateLeft s.y3.x0 41, rotateLeft s.y4.x1 2⟩

@[inline] def Plane.chi (p : Plane) : Plane :=
  ⟨p.x0 ^^^ (~~~p.x1 &&& p.x2), p.x1 ^^^ (~~~p.x2 &&& p.x3), p.x2 ^^^ (~~~p.x3 &&& p.x4),
    p.x3 ^^^ (~~~p.x4 &&& p.x0), p.x4 ^^^ (~~~p.x0 &&& p.x1)⟩

@[inline] def chi (s : State) : State :=
  ⟨s.y0.chi, s.y1.chi, s.y2.chi, s.y3.chi, s.y4.chi⟩

@[inline] def iota (s : State) (constant : UInt64) : State :=
  { s with y0 := { s.y0 with x0 := s.y0.x0 ^^^ constant } }

def round (s : State) (constant : UInt64) : State := iota (chi (rhoPi (theta s))) constant

def roundConstants : List UInt64 :=
  [0x0000000000000001, 0x0000000000008082, 0x800000000000808A, 0x8000000080008000,
   0x000000000000808B, 0x0000000080000001, 0x8000000080008081, 0x8000000000008009,
   0x000000000000008A, 0x0000000000000088, 0x0000000080008009, 0x000000008000000A,
   0x000000008000808B, 0x800000000000008B, 0x8000000000008089, 0x8000000000008003,
   0x8000000000008002, 0x8000000000000080, 0x000000000000800A, 0x800000008000000A,
   0x8000000080008081, 0x8000000000008080, 0x0000000080000001, 0x8000000080008008]

def permute (s : State) : State := roundConstants.foldl round s

/-- The lane at the head of a byte string; missing bytes count as zero. -/
def lane (b : Bytes) : UInt64 :=
  match b with
  | b0 :: b1 :: b2 :: b3 :: b4 :: b5 :: b6 :: b7 :: _ =>
    b0.toUInt64 ||| (b1.toUInt64 <<< 8) ||| (b2.toUInt64 <<< 16) ||| (b3.toUInt64 <<< 24)
      ||| (b4.toUInt64 <<< 32) ||| (b5.toUInt64 <<< 40) ||| (b6.toUInt64 <<< 48)
      ||| (b7.toUInt64 <<< 56)
  | _ => 0

def Plane.read (b : Bytes) : Plane × Bytes :=
  let b1 := b.drop 8
  let b2 := b1.drop 8
  let b3 := b2.drop 8
  let b4 := b3.drop 8
  (⟨lane b, lane b1, lane b2, lane b3, lane b4⟩, b4.drop 8)

def State.read (b : Bytes) : State :=
  let (y0, b) := Plane.read b
  let (y1, b) := Plane.read b
  let (y2, b) := Plane.read b
  let (y3, b) := Plane.read b
  let (y4, _) := Plane.read b
  ⟨y0, y1, y2, y3, y4⟩

def State.zero : State := State.read []

/-- Bytes absorbed by one permutation for a digest of 256 bits. -/
def rate : Nat := 136

def absorb : Nat → State → Bytes → State
  | 0, s, _ => s
  | blocks + 1, s, b => absorb blocks (permute (s.xor (State.read (b.take rate)))) (b.drop rate)

/-- What follows a message to fill its last block: the bits `01`, a one, zeros, and a one. -/
def padding (length : Nat) : Bytes :=
  match rate - length % rate with
  | 0 => []
  | 1 => [0x86]
  | n + 2 => 0x06 :: (List.replicate n 0 ++ [0x80])

def laneBytes (w : UInt64) : Bytes := Bytes.littleEndian 8 w.toNat

end WaterPeg.Keccak

namespace WaterPeg

def sha3 (message : Bytes) : Digest :=
  let length := message.length
  let s := Keccak.absorb (length / Keccak.rate + 1) Keccak.State.zero
    (message ++ Keccak.padding length)
  ⟨Keccak.laneBytes s.y0.x0 ++ Keccak.laneBytes s.y0.x1 ++ Keccak.laneBytes s.y0.x2
    ++ Keccak.laneBytes s.y0.x3, by simp [Keccak.laneBytes]⟩

end WaterPeg
