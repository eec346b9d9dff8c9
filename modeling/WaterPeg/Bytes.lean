/-! Byte strings: UTF-8 text, little-endian numbers, length-prefixed fields, hexadecimal. -/
namespace WaterPeg

abbrev Bytes := List UInt8

namespace Bytes

def ofString (s : String) : Bytes := s.toByteArray.data.toList

def text? (b : Bytes) : Option String := String.fromUTF8? ⟨b.toArray⟩

@[simp] theorem text?_ofString (s : String) : text? (ofString s) = some s := by
  have h : (⟨(ofString s).toArray⟩ : ByteArray) = s.toByteArray := by
    simp [ofString]
  simp [text?, String.fromUTF8?, h, s.isValidUTF8, String.fromUTF8]

theorem ofString_injective {s t : String} (h : ofString s = ofString t) : s = t :=
  Option.some.inj (by rw [← text?_ofString s, h, text?_ofString])

/-- The `k` low bytes of a number, the least significant first. -/
def littleEndian : Nat → Nat → Bytes
  | 0, _ => []
  | k + 1, n => UInt8.ofNat n :: littleEndian k (n / 256)

def ofLittleEndian : Bytes → Nat
  | [] => 0
  | b :: bs => b.toNat + 256 * ofLittleEndian bs

@[simp] theorem length_littleEndian (k n : Nat) : (littleEndian k n).length = k := by
  induction k generalizing n with
  | zero => rfl
  | succ k ih => simp [littleEndian, ih]

theorem ofLittleEndian_littleEndian (k n : Nat) :
    ofLittleEndian (littleEndian k n) = n % Nat.pow 256 k := by
  induction k generalizing n with
  | zero => simp [littleEndian, ofLittleEndian, Nat.mod_one]
  | succ k ih =>
    have byte : (UInt8.ofNat n).toNat = n % 256 := UInt8.toNat_ofNat'
    have power : Nat.pow 256 (k + 1) = 256 * Nat.pow 256 k := Nat.mul_comm (Nat.pow 256 k) 256
    rw [littleEndian, ofLittleEndian, ih, byte, power, Nat.mod_mul]

def ofWord (w : UInt64) : Bytes := littleEndian 8 w.toNat

/-- A field preceded by its length, so that a run of fields splits in one way only. -/
def framed (b : Bytes) : Bytes := littleEndian 8 b.length ++ b

def hexDigit (n : Nat) : Char := Nat.digitChar n

def hex (b : Bytes) : String :=
  String.ofList (b.flatMap fun x => [hexDigit (x.toNat / 16), hexDigit (x.toNat % 16)])

/-- The value of a hexadecimal digit of either case. -/
def hexValue? (b : UInt8) : Option Nat :=
  if 48 ≤ b ∧ b ≤ 57 then some (b.toNat - 48)
  else if 97 ≤ b ∧ b ≤ 102 then some (b.toNat - 87)
  else if 65 ≤ b ∧ b ≤ 70 then some (b.toNat - 55)
  else none

def unhex? : Bytes → Option Bytes
  | [] => some []
  | a :: b :: rest =>
    match hexValue? a, hexValue? b, unhex? rest with
    | some x, some y, some bs => some (UInt8.ofNat (16 * x + y) :: bs)
    | _, _, _ => none
  | [_] => none

end Bytes

end WaterPeg
