import Mathlib.Data.Set.Function
import WaterPeg.Proofs.Oracle.Provenance
import WaterPeg.Proofs.Random.Positions
import WaterPeg.Stabilizer.Payouts

/-!
What a digest is taken of says what it was made from. Each field of a preimage has a fixed width or is
preceded by its length, so it can be read off the front of any bytes; the fields of a list follow one
another to the end. Two names or streams that are alike then come from the same data, or from a
collision of the digest.
-/
namespace WaterPeg

/-! ## Fields at the front -/

namespace Bytes

/-- The length of these bytes fits in the eight bytes before a field. -/
def IsShort (b : Bytes) : Prop := b.length < UInt64.size

instance : DecidablePred IsShort := fun b => inferInstanceAs (Decidable (b.length < UInt64.size))

variable {x y : Bytes}

theorem littleEndian_inj {k n m : Nat} (hn : n < Nat.pow 256 k) (hm : m < Nat.pow 256 k)
    (h : littleEndian k n = littleEndian k m) : n = m := by
  have hvalue := congrArg ofLittleEndian h
  rwa [ofLittleEndian_littleEndian, ofLittleEndian_littleEndian, Nat.mod_eq_of_lt hn,
    Nat.mod_eq_of_lt hm] at hvalue

theorem ofWord_append_inj {v w : UInt64} (h : ofWord v ++ x = ofWord w ++ y) : v = w ∧ x = y := by
  obtain ⟨hword, hrest⟩ := List.append_inj h (by simp [ofWord])
  exact ⟨ofWord_injective hword, hrest⟩

theorem digest_append_inj {d e : Digest} (h : d.bytes ++ x = e.bytes ++ y) : d = e ∧ x = y := by
  obtain ⟨hbytes, hrest⟩ := List.append_inj h (by rw [d.length_bytes, e.length_bytes])
  exact ⟨Digest.ext hbytes, hrest⟩

/-- The length before a field tells where it ends. -/
theorem framed_append_inj {a b : Bytes} (ha : a.IsShort) (hb : b.IsShort)
    (h : framed a ++ x = framed b ++ y) : a = b ∧ x = y := by
  have hsize : UInt64.size = Nat.pow 256 8 := rfl
  unfold IsShort at ha hb
  rw [hsize] at ha hb
  simp only [framed, List.append_assoc] at h
  obtain ⟨hlength, hrest⟩ := List.append_inj h (by simp)
  exact List.append_inj hrest (littleEndian_inj ha hb hlength)

/-- Fields one after the other to the end are told apart without their number. -/
theorem flatMap_framed_inj {parts parts' : List Bytes} (hparts : ∀ p ∈ parts, p.IsShort)
    (hparts' : ∀ p ∈ parts', p.IsShort) (h : parts.flatMap framed = parts'.flatMap framed) :
    parts = parts' := by
  induction parts generalizing parts' with
  | nil =>
    cases parts' with
    | nil => rfl
    | cons p ps => simp [framed, littleEndian] at h
  | cons p ps ih =>
    cases parts' with
    | nil => simp [framed, littleEndian] at h
    | cons q qs =>
      rw [List.flatMap_cons, List.flatMap_cons] at h
      obtain ⟨rfl, hrest⟩ := framed_append_inj (hparts p List.mem_cons_self)
        (hparts' q List.mem_cons_self) h
      rw [ih (fun r hr => hparts r (List.mem_cons_of_mem p hr))
        (fun r hr => hparts' r (List.mem_cons_of_mem p hr)) hrest]

/-- As many fields as there are in the other text are read off the front like a single one. -/
theorem flatMap_framed_append_inj {parts parts' : List Bytes} (hparts : ∀ p ∈ parts, p.IsShort)
    (hparts' : ∀ p ∈ parts', p.IsShort) (hlength : parts.length = parts'.length)
    (h : parts.flatMap framed ++ x = parts'.flatMap framed ++ y) : parts = parts' ∧ x = y := by
  induction parts generalizing parts' with
  | nil =>
    obtain rfl := List.length_eq_zero_iff.1 hlength.symm
    exact ⟨rfl, h⟩
  | cons p ps ih =>
    obtain ⟨q, qs, rfl⟩ := List.exists_cons_of_length_eq_add_one hlength.symm
    rw [List.flatMap_cons, List.flatMap_cons, List.append_assoc, List.append_assoc] at h
    obtain ⟨rfl, hrest⟩ := framed_append_inj (hparts p List.mem_cons_self)
      (hparts' q List.mem_cons_self) h
    obtain ⟨rfl, hxy⟩ := ih (fun r hr => hparts r (List.mem_cons_of_mem p hr))
      (fun r hr => hparts' r (List.mem_cons_of_mem p hr)) (Nat.succ.inj hlength) hrest
    exact ⟨rfl, hxy⟩

end Bytes

def IsShortText (s : String) : Prop := (Bytes.ofString s).IsShort

instance : DecidablePred IsShortText := fun s =>
  inferInstanceAs (Decidable (Bytes.ofString s).IsShort)

variable {x y : Bytes}

theorem framed_text_append_inj {s t : String} (hs : IsShortText s) (ht : IsShortText t)
    (h : Bytes.framed (Bytes.ofString s) ++ x = Bytes.framed (Bytes.ofString t) ++ y) :
    s = t ∧ x = y := by
  obtain ⟨htext, hrest⟩ := Bytes.framed_append_inj hs ht h
  exact ⟨Bytes.ofString_injective htext, hrest⟩

theorem isShort_of_mem_map {texts : List String} (h : ∀ s ∈ texts, IsShortText s) :
    ∀ b ∈ texts.map Bytes.ofString, b.IsShort := by
  simpa [IsShortText] using h

theorem flatMap_framed_text (texts : List String) :
    (texts.flatMap fun s => Bytes.framed (Bytes.ofString s)) =
      (texts.map Bytes.ofString).flatMap Bytes.framed := (List.flatMap_map ..).symm

theorem map_ofString_inj {texts texts' : List String}
    (h : texts.map Bytes.ofString = texts'.map Bytes.ofString) : texts = texts' :=
  List.map_inj_right (fun _ _ => Bytes.ofString_injective) |>.1 h

/-! ## Observations -/

theorem Reading.preimage_inj {domain : Bytes} {submitter submitter' : String}
    {currencies currencies' : List String} {value value' timestamp timestamp' : UInt64}
    {invite invite' : Digest} (hsubmitter : IsShortText submitter)
    (hsubmitter' : IsShortText submitter') (hcurrencies : ∀ c ∈ currencies, IsShortText c)
    (hcurrencies' : ∀ c ∈ currencies', IsShortText c)
    (hlength : currencies.length = currencies'.length)
    (h : preimage domain submitter currencies value timestamp invite =
      preimage domain submitter' currencies' value' timestamp' invite') :
    submitter = submitter' ∧ currencies = currencies' ∧ value = value' ∧ timestamp = timestamp' ∧
      invite = invite' := by
  simp only [preimage, flatMap_framed_text, List.append_assoc] at h
  obtain ⟨hwho, hrest⟩ :=
    framed_text_append_inj hsubmitter hsubmitter' (List.append_cancel_left h)
  obtain ⟨hcodes, hrest⟩ := Bytes.flatMap_framed_append_inj (isShort_of_mem_map hcurrencies)
    (isShort_of_mem_map hcurrencies') (by simpa using hlength) hrest
  obtain ⟨hvalue, hrest⟩ := Bytes.ofWord_append_inj hrest
  obtain ⟨htime, hrest⟩ := Bytes.ofWord_append_inj hrest
  exact ⟨hwho, map_ofString_inj hcodes, hvalue, htime, Digest.ext hrest⟩

inductive Observed
  | price (currency : String)
  | rate (base quote : String)

namespace Observed

def domain : Observed → Bytes
  | price _ => Bytes.ofString (Quantity.domain WaterOffer)
  | rate _ _ => Bytes.ofString (Quantity.domain ExchangeRate)

def codes : Observed → List String
  | price currency => [currency]
  | rate base quote => [base, quote]

theorem eq_of_codes_eq {a b : Observed} (h : a.codes = b.codes) : a = b := by
  cases a <;> cases b <;> simp_all [codes]

/-- Neither domain name goes on as the other. -/
theorem codes_length_eq {a b : Observed} (h : a.domain ++ x = b.domain ++ y) :
    a.domain = b.domain ∧ a.codes.length = b.codes.length := by
  have hdomain : (Bytes.ofString (Quantity.domain WaterOffer)).take 6 ≠
      (Bytes.ofString (Quantity.domain ExchangeRate)).take 6 := by decide
  have hfront : ∀ {u v : Bytes}, Bytes.ofString (Quantity.domain WaterOffer) ++ u ≠
      Bytes.ofString (Quantity.domain ExchangeRate) ++ v := by
    intro u v heq
    have hfirst := congrArg (List.take 6) heq
    rw [List.take_append_of_le_length (by decide), List.take_append_of_le_length (by decide)]
      at hfirst
    exact hdomain hfirst
  cases a <;> cases b
  · exact ⟨rfl, rfl⟩
  · exact absurd h hfront
  · exact absurd h.symm hfront
  · exact ⟨rfl, rfl⟩

end Observed

structure ReadingName where
  observed : Observed
  submitter : String
  value : UInt64
  timestamp : UInt64
  inviteId : Digest

namespace ReadingName

def preimage (n : ReadingName) : Bytes :=
  Reading.preimage n.observed.domain n.submitter n.observed.codes n.value n.timestamp n.inviteId

def IsShort (n : ReadingName) : Prop :=
  IsShortText n.submitter ∧ ∀ c ∈ n.observed.codes, IsShortText c

def ofPrice (r : Reading WaterPrice) : ReadingName :=
  ⟨.price r.measured.currency, r.submitter, r.measured.price, r.timestamp, r.inviteId⟩

def ofRate (r : Reading ExchangeRate) : ReadingName :=
  ⟨.rate r.measured.base r.measured.quote, r.submitter, r.measured.rate, r.timestamp, r.inviteId⟩

theorem injOn_preimage : Set.InjOn preimage {n | n.IsShort} := by
  intro n hn m hm h
  -- The domain name tells how many currencies follow.
  have hfront := h
  simp only [preimage, Reading.preimage, List.append_assoc] at hfront
  obtain ⟨hdomain, hlength⟩ := Observed.codes_length_eq hfront
  rw [preimage, preimage, ← hdomain] at h
  obtain ⟨hsubmitter, hcodes, hvalue, htime, hinvite⟩ :=
    Reading.preimage_inj hn.1 hm.1 hn.2 hm.2 hlength h
  have hobserved := Observed.eq_of_codes_eq hcodes
  cases n; cases m
  simp_all only

end ReadingName

/-- An accepted observation is named by what was observed, by whom and when, for which invite. -/
theorem Oracle.id_of_judge {ω α : Type} [Quantity ω α] {o : Oracle} {s : Submission ω}
    {now : UInt64} {a : Acceptance α} (h : o.judge s now = .ok a) :
    a.reading.id = sha3 (Reading.preimage (Bytes.ofString (Quantity.domain ω)) a.reading.submitter
      (Quantity.codes ω a.reading.measured) (Quantity.value ω a.reading.measured)
      a.reading.timestamp a.reading.inviteId) := by
  obtain ⟨invite, measured, moments, -, -, rfl⟩ := judge_of_ok h
  rfl

/-! ## Invites, payouts and streams -/

theorem Invite.preimage_inj {user user' : String} {createdAt createdAt' sequence sequence' : UInt64}
    (huser : IsShortText user) (huser' : IsShortText user')
    (h : preimage user createdAt sequence = preimage user' createdAt' sequence') :
    user = user' ∧ createdAt = createdAt' ∧ sequence = sequence' := by
  simp only [preimage, List.append_assoc] at h
  obtain ⟨hname, hrest⟩ := framed_text_append_inj huser huser' (List.append_cancel_left h)
  obtain ⟨htime, hrest⟩ := Bytes.ofWord_append_inj hrest
  exact ⟨hname, htime, Bytes.ofWord_injective hrest⟩

structure InviteName where
  user : String
  createdAt : UInt64
  sequence : UInt64

namespace InviteName

def preimage (n : InviteName) : Bytes := Invite.preimage n.user n.createdAt n.sequence

def IsShort (n : InviteName) : Prop := IsShortText n.user

theorem injOn_preimage : Set.InjOn preimage {n | n.IsShort} := by
  intro n hn m hm h
  obtain ⟨huser, htime, hsequence⟩ := Invite.preimage_inj hn hm h
  cases n; cases m
  simp_all only

end InviteName

theorem Payout.preimage_inj {blockHash blockHash' : Digest} {height height' : UInt64}
    {currency currency' : String} {amount amount' : UInt128} {recipients recipients' : List String}
    (hcurrency : IsShortText currency) (hcurrency' : IsShortText currency')
    (hrecipients : ∀ r ∈ recipients, IsShortText r) (hrecipients' : ∀ r ∈ recipients', IsShortText r)
    (h : preimage blockHash height currency amount recipients =
      preimage blockHash' height' currency' amount' recipients') :
    blockHash = blockHash' ∧ height = height' ∧ currency = currency' ∧ amount = amount' ∧
      recipients = recipients' := by
  simp only [preimage, flatMap_framed_text, List.append_assoc] at h
  obtain ⟨hblock, hrest⟩ := Bytes.digest_append_inj (List.append_cancel_left h)
  obtain ⟨hheight, hrest⟩ := Bytes.ofWord_append_inj hrest
  obtain ⟨hcode, hrest⟩ := framed_text_append_inj hcurrency hcurrency' hrest
  obtain ⟨hamount, hrest⟩ := List.append_inj hrest (by simp)
  have hnumber := Bytes.littleEndian_inj amount.toNat_lt amount'.toNat_lt hamount
  have hmap := Bytes.flatMap_framed_inj (isShort_of_mem_map hrecipients)
    (isShort_of_mem_map hrecipients') hrest
  exact ⟨hblock, hheight, hcode, UInt128.toNat_inj.1 hnumber, map_ofString_inj hmap⟩

structure PayoutName where
  blockHash : Digest
  height : UInt64
  currency : String
  amount : UInt128
  recipients : List String

namespace PayoutName

def preimage (n : PayoutName) : Bytes :=
  Payout.preimage n.blockHash n.height n.currency n.amount n.recipients

def IsShort (n : PayoutName) : Prop :=
  IsShortText n.currency ∧ ∀ r ∈ n.recipients, IsShortText r

instance : DecidablePred IsShort := fun n =>
  inferInstanceAs (Decidable (IsShortText n.currency ∧ ∀ r ∈ n.recipients, IsShortText r))

theorem injOn_preimage : Set.InjOn preimage {n | n.IsShort} := by
  intro n hn m hm h
  obtain ⟨hblock, hheight, hcurrency, hamount, hrecipients⟩ :=
    Payout.preimage_inj hn.1 hm.1 hn.2 hm.2 h
  cases n; cases m
  simp_all only

end PayoutName

theorem RandomStream.injOn_seedPreimage (domain : Bytes) :
    Set.InjOn (seedPreimage domain) {parts | ∀ p ∈ parts, p.IsShort} :=
  fun _ hparts _ hparts' h => Bytes.flatMap_framed_inj hparts hparts' (List.append_cancel_left h)

/-! ## Digests -/

def Collides (p q : Bytes) : Prop := p ≠ q ∧ sha3 p = sha3 q

theorem eq_or_collides {p q : Bytes} (h : sha3 p = sha3 q) : p = q ∨ Collides p q := by
  by_cases heq : p = q
  · exact Or.inl heq
  · exact Or.inr ⟨heq, h⟩

/-- On these data a preimage determines what it is made from. -/
structure Identifies {α : Type} (valid : α → Prop) (preimage : α → Bytes) : Prop where
  injOn : Set.InjOn preimage {a | valid a}
  /-- One digest stands for one datum, or a collision has been found. -/
  eq_or_collides : ∀ {a b : α}, valid a → valid b → sha3 (preimage a) = sha3 (preimage b) →
    a = b ∨ Collides (preimage a) (preimage b)

theorem Identifies.of_injOn {α : Type} {valid : α → Prop} {preimage : α → Bytes}
    (h : Set.InjOn preimage {a | valid a}) : Identifies valid preimage where
  injOn := h
  eq_or_collides ha hb hdigest := (WaterPeg.eq_or_collides hdigest).imp_left (h ha hb)

def RandomStream.firstBlockPreimage (domain : Bytes) (parts : List Bytes) : Bytes :=
  (sha3 (seedPreimage domain parts)).bytes ++ Bytes.littleEndian 8 0

/-- Streams alike in their first four words have their parts in common, unless two seeds or two first
blocks collide. -/
theorem RandomStream.parts_eq_or_collides {domain : Bytes} {parts parts' : List Bytes}
    (hparts : ∀ p ∈ parts, p.IsShort) (hparts' : ∀ p ∈ parts', p.IsShort)
    (h : ∀ k < 4, (ofParts domain parts).word k = (ofParts domain parts').word k) :
    parts = parts' ∨ Collides (seedPreimage domain parts) (seedPreimage domain parts') ∨
      Collides (firstBlockPreimage domain parts) (firstBlockPreimage domain parts') := by
  have hwords : ∀ q < 4, wordAt (sha3 (seedPreimage domain parts)) (4 * 0 + q) =
      wordAt (sha3 (seedPreimage domain parts')) (4 * 0 + q) := by
    intro q hq
    rw [Nat.mul_zero, Nat.zero_add, ← word_ofSeed, ← word_ofSeed]
    exact h q hq
  rcases eq_or_collides (blockAt_eq_of_words_eq hwords) with hblocks | hblocks
  · have hseeds := (Bytes.digest_append_inj hblocks).1
    rcases eq_or_collides hseeds with hsame | hcollides
    · exact Or.inl (injOn_seedPreimage domain hparts hparts' hsame)
    · exact Or.inr (Or.inl hcollides)
  · exact Or.inr (Or.inr hblocks)

/-- What is hashed determines what it was made from: of observations of both kinds together, of
invites, of payouts with all their recipients, and of the parts that a stream of one domain is drawn
by. So ids and streams are shared by different data only if the digest collides on texts named here. -/
theorem preimages_identify :
    Identifies ReadingName.IsShort ReadingName.preimage ∧
      (∀ (o : Oracle) (s : Submission WaterOffer) now a, o.judge s now = .ok a →
        a.reading.id = sha3 (ReadingName.ofPrice a.reading).preimage) ∧
      (∀ (o : Oracle) (s : Submission ExchangeRate) now a, o.judge s now = .ok a →
        a.reading.id = sha3 (ReadingName.ofRate a.reading).preimage) ∧
      Identifies InviteName.IsShort InviteName.preimage ∧
      (∀ n : InviteName, Invite.idOf n.user n.createdAt n.sequence = sha3 n.preimage) ∧
      Identifies PayoutName.IsShort PayoutName.preimage ∧
      (∀ (block : Block) currency amount coins ratio recipients,
        (Payout.ofRecipients block currency amount coins ratio recipients).id =
          sha3 (PayoutName.preimage ⟨block.hash, block.height, currency, amount, recipients⟩)) ∧
      ∀ domain,
        Identifies (fun parts => ∀ p ∈ parts, p.IsShort) (RandomStream.seedPreimage domain) ∧
        ∀ {parts parts' : List Bytes}, (∀ p ∈ parts, p.IsShort) → (∀ p ∈ parts', p.IsShort) →
          (∀ k, (RandomStream.ofParts domain parts).word k =
            (RandomStream.ofParts domain parts').word k) →
          parts = parts' ∨
            Collides (RandomStream.seedPreimage domain parts)
              (RandomStream.seedPreimage domain parts') ∨
            Collides (RandomStream.firstBlockPreimage domain parts)
              (RandomStream.firstBlockPreimage domain parts') := by
  refine ⟨.of_injOn ReadingName.injOn_preimage, fun _ _ _ _ h => Oracle.id_of_judge h,
    fun _ _ _ _ h => Oracle.id_of_judge h, .of_injOn InviteName.injOn_preimage, fun _ => rfl,
    .of_injOn PayoutName.injOn_preimage, fun _ _ _ _ _ _ => rfl, fun domain => ⟨?_, ?_⟩⟩
  · exact .of_injOn (RandomStream.injOn_seedPreimage domain)
  · intro parts parts' hparts hparts' h
    exact RandomStream.parts_eq_or_collides hparts hparts' fun k _ => h k

def payoutTo (recipients : List String) : PayoutName := ⟨.zero, 144, "OUSD", 100, recipients⟩

/-- The same letters in other recipients, or in other parts, are other bytes. -/
theorem preimages_identify_regrouped :
    (payoutTo ["ab", "c"]).preimage ≠ (payoutTo ["a", "bc"]).preimage ∧
      RandomStream.seedPreimage [84] [[1, 2], [3]] ≠ RandomStream.seedPreimage [84] [[1], [2, 3]] := by
  obtain ⟨-, -, -, -, -, hpayouts, -, hstreams⟩ := preimages_identify
  constructor
  · have hfirst : (payoutTo ["ab", "c"]).IsShort := by decide
    have hsecond : (payoutTo ["a", "bc"]).IsShort := by decide
    intro h
    have hsame := congrArg PayoutName.recipients (hpayouts.injOn hfirst hsecond h)
    simp [payoutTo] at hsame
  · have hfirst : ∀ p ∈ [[1, 2], [3]], Bytes.IsShort p := by decide
    have hsecond : ∀ p ∈ [[1], [2, 3]], Bytes.IsShort p := by decide
    intro h
    have hsame := (hstreams [84]).1.injOn hfirst hsecond h
    simp at hsame

end WaterPeg
