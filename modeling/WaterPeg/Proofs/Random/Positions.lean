import Mathlib.Tactic.Common
import WaterPeg.Proofs.Random.Draws

/-!
The stream of a seed as a sequence: word `k` is a quarter of block `k / 4`, however far the stream has
been read before. Streams that have their words in common have their seeds in common, or a collision
of the digest.
-/
namespace WaterPeg

theorem Bytes.ofLittleEndian_lt (b : Bytes) : ofLittleEndian b < Nat.pow 256 b.length := by
  induction b with
  | nil => exact Nat.one_pos
  | cons x b ih =>
    have hbyte : x.toNat < 256 := x.toNat_lt
    have hpower : Nat.pow 256 (b.length + 1) = 256 * Nat.pow 256 b.length := Nat.mul_comm ..
    rw [ofLittleEndian, List.length_cons, hpower]
    omega

theorem Bytes.ofLittleEndian_inj {a b : Bytes} (hlength : a.length = b.length)
    (h : ofLittleEndian a = ofLittleEndian b) : a = b := by
  induction a generalizing b with
  | nil => exact (List.length_eq_zero_iff.1 hlength.symm).symm
  | cons x a ih =>
    obtain ⟨y, b, rfl⟩ := List.exists_cons_of_length_eq_add_one hlength.symm
    have hx : x.toNat < 256 := x.toNat_lt
    have hy : y.toNat < 256 := y.toNat_lt
    rw [ofLittleEndian, ofLittleEndian] at h
    rw [UInt8.toNat_inj.1 (by omega : x.toNat = y.toNat), ih (Nat.succ.inj hlength) (by omega)]

/-- The four quarters of a digest make it up. -/
theorem Digest.eq_of_quarters_eq {d e : Digest}
    (h : ∀ q < 4, (d.bytes.drop (8 * q)).take 8 = (e.bytes.drop (8 * q)).take 8) : d = e := by
  have hd := d.length_bytes
  have he := e.length_bytes
  refine Digest.ext (List.ext_getElem? fun i => ?_)
  by_cases hi : i < 32
  · have hquarter := congrArg (·[i % 8]?) (h (i / 8) (by omega))
    have hwithin : i % 8 < 8 := Nat.mod_lt i (by decide)
    simpa only [List.getElem?_take, if_pos hwithin, List.getElem?_drop, Nat.div_add_mod] using hquarter
  · rw [List.getElem?_eq_none (by omega), List.getElem?_eq_none (by omega)]

namespace RandomStream

def wordAt (seed : Digest) (k : Nat) : UInt64 :=
  UInt64.ofNat
    (Bytes.ofLittleEndian (((blockAt seed (k / 4)).bytes.drop (8 * (k % 4))).take 8))

/-- The next word of the stream is word `k` of the stream of a seed. A block that is used up is not
looked at again. -/
structure At (s : RandomStream) (seed : Digest) (k : Nat) : Prop where
  seed_eq : s.seed = seed
  counter_eq : s.counter = (k + 3) / 4
  offset_eq : s.offset = if k % 4 = 0 then 32 else 8 * (k % 4)
  block_eq : k % 4 ≠ 0 → s.block = blockAt seed (k / 4)

theorem at_ofSeed (seed : Digest) : (ofSeed seed).At seed 0 := ⟨rfl, rfl, rfl, fun h => absurd rfl h⟩

/-- With a word left in its block, the stream at word `k` is in block `k / 4`. -/
theorem refill_of_at {s : RandomStream} {seed : Digest} {k : Nat} (h : s.At seed k) :
    s.refill = ⟨seed, k / 4 + 1, blockAt seed (k / 4), 8 * (k % 4)⟩ := by
  obtain ⟨hseed, hcounter, hoffset, hblock⟩ := h
  unfold refill
  by_cases hk : k % 4 = 0
  · rw [if_pos hk] at hoffset
    have hnext : s.counter = k / 4 := by omega
    rw [if_pos (by omega), hseed, hnext, hk]
  · rw [if_neg hk] at hoffset
    have hcurrent : s.counter = k / 4 + 1 := by omega
    rw [if_neg (by omega)]
    cases s
    simp only at hseed hcurrent hoffset hblock
    rw [hseed, hcurrent, hoffset, hblock hk]

theorem next_of_at {s : RandomStream} {seed : Digest} {k : Nat} (h : s.At seed k) :
    s.next.1 = wordAt seed k ∧ s.next.2.At seed (k + 1) := by
  have hrefill := refill_of_at h
  unfold next
  simp only [hrefill]
  refine ⟨rfl, rfl, ?_, ?_, ?_⟩
  · dsimp only
    omega
  · dsimp only
    split <;> omega
  · intro hk
    have hsame : (k + 1) / 4 = k / 4 := by omega
    rw [hsame]

theorem at_after {s : RandomStream} {seed : Digest} {k : Nat} (h : s.At seed k) (n : Nat) :
    (s.after n).At seed (k + n) := by
  induction n generalizing s k with
  | zero => exact h
  | succ n ih =>
    rw [after_succ, Nat.add_comm n, ← Nat.add_assoc]
    exact ih (next_of_at h).2

/-- The stream of a seed is the sequence of its words. -/
theorem word_ofSeed (seed : Digest) (k : Nat) : (ofSeed seed).word k = wordAt seed k := by
  have hat := at_after (at_ofSeed seed) k
  rw [Nat.zero_add] at hat
  exact (next_of_at hat).1

theorem length_quarter (d : Digest) {q : Nat} (hq : q < 4) :
    ((d.bytes.drop (8 * q)).take 8).length = 8 := by
  rw [List.length_take, List.length_drop, d.length_bytes]
  omega

/-- A word holds all of the eight bytes that it is made of. -/
theorem toNat_wordAt (seed : Digest) (k : Nat) :
    (wordAt seed k).toNat =
      Bytes.ofLittleEndian (((blockAt seed (k / 4)).bytes.drop (8 * (k % 4))).take 8) := by
  have hlt := Bytes.ofLittleEndian_lt (((blockAt seed (k / 4)).bytes.drop (8 * (k % 4))).take 8)
  rw [length_quarter _ (Nat.mod_lt k (by decide))] at hlt
  exact UInt64.toNat_ofNat_of_lt' hlt

/-- A block is told by the four words in it. -/
theorem blockAt_eq_of_words_eq {seed seed' : Digest} {i : Nat}
    (h : ∀ q < 4, wordAt seed (4 * i + q) = wordAt seed' (4 * i + q)) :
    blockAt seed i = blockAt seed' i := by
  refine Digest.eq_of_quarters_eq fun q hq => ?_
  have hblock : (4 * i + q) / 4 = i := by omega
  have hplace : (4 * i + q) % 4 = q := by omega
  have hword := congrArg UInt64.toNat (h q hq)
  rw [toNat_wordAt, toNat_wordAt, hblock, hplace] at hword
  exact Bytes.ofLittleEndian_inj (by rw [length_quarter _ hq, length_quarter _ hq]) hword

end RandomStream

end WaterPeg
