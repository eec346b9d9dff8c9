import WaterPeg.Proofs.Random.Arrangements
import WaterPeg.Proofs.Random.Positions

/-!
Calls of every kind, in whatever order, read a stream as one sequence of words. A call takes the words
right behind those of the calls before it, also the ones that a draw passes over, and its answer is
made of the words that it takes.
-/
namespace WaterPeg.RandomStream

/-! ## Words read one after the other -/

theorem words_add (m n : Nat) (s : RandomStream) :
    s.words (m + n) = ((s.words m).1 ++ ((s.after m).words n).1, (s.after m).after n) := by
  induction m generalizing s with
  | zero =>
    rw [Nat.zero_add]
    rfl
  | succ m ih =>
    rw [Nat.succ_add, words]
    dsimp only
    rw [ih]
    rfl

theorem getElem?_words (s : RandomStream) {k n : Nat} (hk : k < n) :
    (s.words n).1[k]? = some (s.word k) := by
  induction n generalizing s k with
  | zero => exact absurd hk (Nat.not_lt_zero k)
  | succ n ih =>
    cases k with
    | zero => rfl
    | succ k => exact ih s.next.2 (Nat.lt_of_succ_lt_succ hk)

/-- Word by word, the stream gives these words and then is another one. -/
def Reads (s : RandomStream) (ws : List UInt64) (s' : RandomStream) : Prop :=
  s.words ws.length = (ws, s')

namespace Reads

variable {s t u : RandomStream} {ws vs : List UInt64}

theorem nil (s : RandomStream) : s.Reads [] s := rfl

theorem next (s : RandomStream) : s.Reads [s.next.1] s.next.2 := rfl

theorem eq_after (h : s.Reads ws t) : t = s.after ws.length := (congrArg Prod.snd h).symm

theorem append (h : s.Reads ws t) (h' : t.Reads vs u) : s.Reads (ws ++ vs) u := by
  rw [Reads, List.length_append, words_add, ← h.eq_after, ← h'.eq_after, h, h']

theorem getElem?_eq (h : s.Reads ws t) {k : Nat} (hk : k < ws.length) :
    ws[k]? = some (s.word k) := by
  rw [← getElem?_words s hk, h]

theorem at_of_at (h : s.Reads ws t) {seed : Digest} {k : Nat} (hs : s.At seed k) :
    t.At seed (k + ws.length) := h.eq_after ▸ at_after hs _

end Reads

/-! ## What a call takes -/

/-- The words that a search in the zone takes: those that it passes over and the one that it finds. -/
def takenInZone (bound : UInt64) : Nat → RandomStream → List UInt64
  | 0, _ => []
  | limit + 1, s =>
    let (w, s) := s.next
    if w < zone bound then [w] else w :: takenInZone bound limit s

def takenBelow (s : RandomStream) (bound : UInt64) : List UInt64 :=
  if bound = 0 then [] else takenInZone bound s.wordsLeft s

def takenInDraws : List Nat → RandomStream → List UInt64
  | [], _ => []
  | bound :: bounds, s =>
    s.takenBelow (UInt64.ofNat bound) ++ takenInDraws bounds (s.below (UInt64.ofNat bound)).2

inductive Call : Type 1
  | next
  | below (bound : UInt64)
  | shuffle {α : Type} (items : List α)

def Call.Answer : Call → Type
  | next => UInt64
  | below _ => UInt64
  | @shuffle α _ => List α

def ask (s : RandomStream) : (c : Call) → c.Answer × RandomStream
  | .next => s.next
  | .below bound => s.below bound
  | .shuffle items => s.shuffle items

def taken (s : RandomStream) : Call → List UInt64
  | .next => [s.next.1]
  | .below bound => s.takenBelow bound
  | .shuffle items => s.takenInDraws (bounds items.length)

def askAll : List Call → RandomStream → RandomStream
  | [], s => s
  | c :: calls, s => askAll calls (s.ask c).2

/-- The words that calls take, one call after the other. -/
def takenBy : List Call → RandomStream → List UInt64
  | [], _ => []
  | c :: calls, s => s.taken c ++ takenBy calls (s.ask c).2

theorem reads_firstInZone (bound : UInt64) (limit : Nat) (s : RandomStream) :
    s.Reads (takenInZone bound limit s) (firstInZone bound limit s).2 := by
  induction limit generalizing s with
  | zero => exact .nil s
  | succ limit ih =>
    unfold takenInZone firstInZone
    dsimp only
    split
    · exact .next s
    · exact (Reads.next s).append (ih s.next.2)

theorem reads_below (s : RandomStream) (bound : UInt64) :
    s.Reads (s.takenBelow bound) (s.below bound).2 := by
  unfold takenBelow below
  split
  · exact .nil s
  · exact reads_firstInZone bound s.wordsLeft s

theorem reads_draws (bounds : List Nat) (s : RandomStream) :
    s.Reads (s.takenInDraws bounds) (s.draws bounds).2 := by
  induction bounds generalizing s with
  | nil => exact .nil s
  | cons bound bounds ih => exact (reads_below s _).append (ih _)

theorem reads_ask (s : RandomStream) (c : Call) : s.Reads (s.taken c) (s.ask c).2 := by
  cases c with
  | next => exact .next s
  | below bound => exact reads_below s bound
  | shuffle items =>
    rw [ask, shuffle_eq]
    exact reads_draws (bounds items.length) s

theorem reads_askAll (calls : List Call) (s : RandomStream) :
    s.Reads (s.takenBy calls) (s.askAll calls) := by
  induction calls generalizing s with
  | nil => exact .nil s
  | cons c calls ih => exact (reads_ask s c).append (ih _)

/-! ## What the answer is made of -/

/-- A number is drawn from words: all but the last are passed over, and the last is in the zone of
the bound and reduced by it. No word goes into a number below 0. -/
inductive DrawnFrom (bound : UInt64) : List UInt64 → UInt64 → Prop
  | nothing (hbound : bound = 0) : DrawnFrom bound [] 0
  | found {w : UInt64} (hw : w < zone bound) : DrawnFrom bound [w] (w % bound)
  | passed {w r : UInt64} {ws : List UInt64} (hbound : 0 < bound) (hw : zone bound ≤ w)
    (h : DrawnFrom bound ws r) : DrawnFrom bound (w :: ws) r

inductive AllDrawnFrom : List Nat → List UInt64 → List Nat → Prop
  | nil : AllDrawnFrom [] [] []
  | cons {bound : Nat} {bounds js : List Nat} {ws vs : List UInt64} {j : UInt64}
    (h : DrawnFrom (UInt64.ofNat bound) ws j) (hrest : AllDrawnFrom bounds vs js) :
    AllDrawnFrom (bound :: bounds) (ws ++ vs) (j.toNat :: js)

/-- The answer of a call is made of these words and no others. -/
def Call.AnsweredFrom : (c : Call) → List UInt64 → c.Answer → Prop
  | next, ws, w => ws = [w]
  | below bound, ws, r => DrawnFrom bound ws r
  | shuffle items, ws, ys =>
    ∃ js, AllDrawnFrom (bounds items.length) ws js ∧ ys = arrange items js

theorem wordsLeft_of_at {s : RandomStream} {seed : Digest} {k : Nat} (h : s.At seed k)
    (hk : k ≤ 2 ^ 66) : s.wordsLeft = 2 ^ 66 - k := by
  have hsize : UInt64.size = 2 ^ 64 := rfl
  rw [wordsLeft, h.counter_eq, h.offset_eq, hsize]
  split <;> omega

/-- A search that does not come to its limit finds a word in the zone. -/
theorem drawnFrom_firstInZone {bound : UInt64} (hbound : 0 < bound) {limit : Nat} {s : RandomStream}
    (hlimit : (takenInZone bound limit s).length < limit) :
    DrawnFrom bound (takenInZone bound limit s) (firstInZone bound limit s).1 := by
  induction limit generalizing s with
  | zero => exact absurd hlimit (Nat.not_lt_zero _)
  | succ limit ih =>
    unfold takenInZone at hlimit
    unfold takenInZone firstInZone
    dsimp only at hlimit ⊢
    split
    · next hw => exact .found hw
    · next hw =>
      rw [if_neg hw] at hlimit
      exact .passed hbound (UInt64.not_lt.1 hw) (ih (Nat.lt_of_succ_lt_succ hlimit))

section Position

variable {s : RandomStream} {seed : Digest} {k : Nat} (h : s.At seed k)

include h

theorem drawnFrom_below {bound : UInt64} (hleft : k + (s.takenBelow bound).length < 2 ^ 66) :
    DrawnFrom bound (s.takenBelow bound) (s.below bound).1 := by
  unfold takenBelow at hleft
  unfold takenBelow below
  split
  · next hzero => exact .nothing hzero
  · next hne =>
    rw [if_neg hne] at hleft
    have hwords := wordsLeft_of_at h (by omega)
    exact drawnFrom_firstInZone (UInt64.pos_iff_ne_zero.2 hne) (by omega)

theorem allDrawnFrom_draws {bounds : List Nat}
    (hleft : k + (s.takenInDraws bounds).length < 2 ^ 66) :
    AllDrawnFrom bounds (s.takenInDraws bounds) (s.draws bounds).1 := by
  induction bounds generalizing s k with
  | nil => exact .nil
  | cons bound bounds ih =>
    rw [takenInDraws, List.length_append, ← Nat.add_assoc] at hleft
    have hbelow := drawnFrom_below h (Nat.lt_of_le_of_lt (Nat.le_add_right ..) hleft)
    exact .cons hbelow (ih ((reads_below s _).at_of_at h) hleft)

theorem answeredFrom_ask {c : Call} (hleft : k + (s.taken c).length < 2 ^ 66) :
    c.AnsweredFrom (s.taken c) (s.ask c).1 := by
  cases c with
  | next => exact rfl
  | below bound => exact drawnFrom_below h hleft
  | shuffle items =>
    rw [ask, shuffle_eq]
    exact ⟨_, allDrawnFrom_draws h hleft, rfl⟩

end Position

/-- The words that calls take from the stream of a seed are its words in order, none left out and none
taken twice. The word at `k` is a quarter of block `k / 4`, whose number is written without loss up to
the last of the `2 ^ 66` words. After the calls the stream is where reading as many words leaves it,
and a further call that does not use the stream up is answered from the words that it takes. -/
theorem takenBy_indexed (seed : Digest) (calls : List Call) :
    (∀ k < 2 ^ 66, ∀ w, ((ofSeed seed).takenBy calls)[k]? = some w →
      Bytes.ofLittleEndian (Bytes.littleEndian 8 (k / 4)) = k / 4 ∧
        w.toNat = Bytes.ofLittleEndian
          (((sha3 (seed.bytes ++ Bytes.littleEndian 8 (k / 4))).bytes.drop (8 * (k % 4))).take 8)) ∧
      (ofSeed seed).askAll calls = (ofSeed seed).after ((ofSeed seed).takenBy calls).length ∧
      ∀ c : Call,
        ((ofSeed seed).takenBy calls).length + (((ofSeed seed).askAll calls).taken c).length <
            2 ^ 66 →
          c.AnsweredFrom (((ofSeed seed).askAll calls).taken c)
            (((ofSeed seed).askAll calls).ask c).1 := by
  have hreads := reads_askAll calls (ofSeed seed)
  have hat := hreads.at_of_at (at_ofSeed seed)
  rw [Nat.zero_add] at hat
  refine ⟨fun k hk w hw => ⟨?_, ?_⟩, hreads.eq_after, fun c hleft => answeredFrom_ask hat hleft⟩
  · rw [Bytes.ofLittleEndian_littleEndian]
    exact Nat.mod_eq_of_lt (Nat.div_lt_of_lt_mul hk)
  · obtain ⟨hlength, -⟩ := List.getElem?_eq_some_iff.1 hw
    rw [hreads.getElem?_eq hlength, word_ofSeed] at hw
    rw [← Option.some.inj hw]
    exact toNat_wordAt seed k

/-- A word, a number below 10, an order of three users, and a word of the next block. -/
def mixedCalls : List Call := [.next, .below 10, .shuffle ["ada", "ben", "cleo"], .next]

theorem takenBy_indexed_mixedCalls :
    ((ofSeed .zero).takenBy mixedCalls)[4]? = some 7547537648458251653 ∧
      7547537648458251653 = Bytes.ofLittleEndian
        ((sha3 (Digest.zero.bytes ++ Bytes.littleEndian 8 1)).bytes.take 8) := by
  have htaken : ((ofSeed .zero).takenBy mixedCalls)[4]? = some 7547537648458251653 := by
    decide +kernel
  obtain ⟨hwords, -, -⟩ := takenBy_indexed .zero mixedCalls
  exact ⟨htaken, (hwords 4 (by decide) _ htaken).2⟩

end WaterPeg.RandomStream
