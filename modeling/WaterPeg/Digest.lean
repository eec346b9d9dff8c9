import WaterPeg.Bytes
import WaterPeg.Order

/-! Digests of 256 bits, which name every record, and their hexadecimal form. -/
namespace WaterPeg

@[ext] structure Digest where
  bytes : Bytes
  length_bytes : bytes.length = 32
deriving DecidableEq

namespace Digest

/-- Digests are ordered byte by byte. -/
instance : Ord Digest := ⟨compareOn bytes⟩

instance : Std.TransOrd Digest :=
  inferInstanceAs (Std.TransCmp (compareOn bytes))

instance : Std.LawfulEqOrd Digest :=
  lawfulEqCmp_compareOn bytes fun _ _ => Digest.ext

def zero : Digest := ⟨List.replicate 32 0, List.length_replicate⟩

instance : Inhabited Digest := ⟨zero⟩

def ofBytes? (b : Bytes) : Option Digest :=
  if h : b.length = 32 then some ⟨b, h⟩ else none

theorem ofBytes?_bytes (d : Digest) : ofBytes? d.bytes = some d := by
  simp [ofBytes?, d.length_bytes]

def toHex (d : Digest) : String := Bytes.hex d.bytes

inductive HexError
  | oddLength
  | badCharacter (byte : UInt8) (position : Nat)
  | wrongSize (bytes : Nat)
deriving DecidableEq

/-- A byte taken as a character and quoted, with the usual backslash escapes. -/
def quoted (b : UInt8) : String :=
  let body : String :=
    if b = 0 then "\\0"
    else if b = 9 then "\\t"
    else if b = 10 then "\\n"
    else if b = 13 then "\\r"
    else if b = 39 then "\\'"
    else if b = 92 then "\\\\"
    else if b < 32 ∨ (127 ≤ b ∧ b ≤ 160) ∨ b = 173 then
      "\\u\x7b" ++ String.ofList (Nat.toDigits 16 b.toNat) ++ "\x7d"
    else String.ofList [Char.ofNat b.toNat]
  "'" ++ body ++ "'"

def HexError.message : HexError → String
  | .oddLength => "Invalid hex id: Odd number of digits"
  | .badCharacter b p => s!"Invalid hex id: Invalid character {quoted b} at position {p}"
  | .wrongSize n => s!"Invalid id length: {n} bytes (expected 32)"

/-- Read pairs of hexadecimal digits; `position` is the place of the first of them. -/
def hexPairs (position : Nat) : Bytes → Except HexError Bytes
  | a :: b :: rest =>
    match Bytes.hexValue? a, Bytes.hexValue? b with
    | some x, some y => (UInt8.ofNat (16 * x + y) :: ·) <$> hexPairs (position + 2) rest
    | none, _ => .error (.badCharacter a position)
    | some _, none => .error (.badCharacter b (position + 1))
  | _ => .ok []

/-- Read a digest: an even number of hexadecimal digits of either case, sixty-four of them. -/
def ofHex (s : String) : Except HexError Digest := do
  let text := Bytes.ofString s
  if text.length % 2 = 1 then .error .oddLength
  let b ← hexPairs 0 text
  if h : b.length = 32 then .ok ⟨b, h⟩ else .error (.wrongSize b.length)

end Digest

end WaterPeg
