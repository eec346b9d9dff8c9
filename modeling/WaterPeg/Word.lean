/-!
Words of 64 and 128 bits. Where no step can leave a word, arithmetic is done on natural numbers; a
result is narrowed back to a word by cutting (`ofNat`), by clamping (`ofNatClamp`) or not at all when
it does not fit (`ofNat?`).
-/
namespace WaterPeg

def absDiff (a b : Nat) : Nat := (a - b) + (b - a)

def word? (n : Nat) : Option UInt64 := if n < UInt64.size then some (UInt64.ofNat n) else none

structure UInt128 where
  ofBitVec ::
  toBitVec : BitVec 128
deriving DecidableEq

namespace UInt128

def size : Nat := UInt64.size * UInt64.size

def toNat (x : UInt128) : Nat := x.toBitVec.toNat

/-- The low 128 bits of a number. -/
def ofNat (n : Nat) : UInt128 := ⟨BitVec.ofNat 128 n⟩

def ofWord (x : UInt64) : UInt128 := ofNat x.toNat

def ofNatClamp (n : Nat) : UInt128 := ofNat (min n (size - 1))

def ofNat? (n : Nat) : Option UInt128 := if n < size then some (ofNat n) else none

instance (n : Nat) : OfNat UInt128 n := ⟨ofNat n⟩

instance : Inhabited UInt128 := ⟨0⟩

/-- The low 128 bits of the product. -/
instance : Mul UInt128 := ⟨fun x y => ofNat (x.toNat * y.toNat)⟩

def ceilDiv (x y : UInt128) : UInt128 := ofNat ((x.toNat + y.toNat - 1) / y.toNat)

theorem toNat_lt (x : UInt128) : x.toNat < size := x.toBitVec.isLt

theorem toNat_ofNat (n : Nat) : (ofNat n).toNat = n % size := by
  simp [toNat, ofNat, size, UInt64.size, BitVec.toNat_ofNat]

theorem toNat_ofNat_of_lt {n : Nat} (h : n < size) : (ofNat n).toNat = n := by
  rw [toNat_ofNat, Nat.mod_eq_of_lt h]

@[simp] theorem ofNat_toNat (x : UInt128) : ofNat x.toNat = x := by
  simp [ofNat, toNat]

theorem toNat_inj {x y : UInt128} : x.toNat = y.toNat ↔ x = y :=
  ⟨fun h => by rw [← ofNat_toNat x, h, ofNat_toNat], fun h => h ▸ rfl⟩

theorem toNat_ofWord (x : UInt64) : (ofWord x).toNat = x.toNat :=
  toNat_ofNat_of_lt (Nat.lt_of_lt_of_le x.toNat_lt_size (by decide))

theorem toNat_mul_of_lt {x y : UInt128} (h : x.toNat * y.toNat < size) :
    (x * y).toNat = x.toNat * y.toNat :=
  toNat_ofNat_of_lt h

/-- The product of two words of 64 bits fits. -/
theorem toNat_ofWord_mul (x : UInt64) {n : Nat} (hn : n < UInt64.size) :
    (ofWord x * ofNat n).toNat = x.toNat * n := by
  have hle : UInt64.size ≤ size := by decide
  have hword : (ofNat n).toNat = n := toNat_ofNat_of_lt (Nat.lt_of_lt_of_le hn hle)
  rw [toNat_mul_of_lt, toNat_ofWord, hword]
  rw [toNat_ofWord, hword]
  exact Nat.mul_lt_mul'' x.toNat_lt_size hn

theorem toNat_ceilDiv (x : UInt128) {y : UInt128} (hy : 0 < y.toNat) :
    (x.ceilDiv y).toNat = (x.toNat + y.toNat - 1) / y.toNat := by
  have hx := x.toNat_lt
  have hle : (x.toNat + y.toNat - 1) / y.toNat ≤ x.toNat := by
    rw [Nat.div_le_iff_le_mul_add_pred hy]
    have hmul := Nat.le_mul_of_pos_left x.toNat hy
    omega
  exact toNat_ofNat_of_lt (Nat.lt_of_le_of_lt hle hx)

theorem toNat_ofNatClamp (n : Nat) : (ofNatClamp n).toNat = min n (size - 1) := by
  rw [ofNatClamp, toNat_ofNat_of_lt]
  have : 0 < size := by decide
  omega

theorem ofNat?_toNat (x : UInt128) : ofNat? x.toNat = some x := by
  simp [ofNat?, x.toNat_lt]

theorem ofNat?_eq_some_iff {n : Nat} {x : UInt128} : ofNat? n = some x ↔ x.toNat = n := by
  constructor
  · intro h
    unfold ofNat? at h
    split at h
    · next hlt => rw [← Option.some.inj h, toNat_ofNat_of_lt hlt]
    · exact nomatch h
  · rintro rfl
    exact ofNat?_toNat x

end UInt128

end WaterPeg
