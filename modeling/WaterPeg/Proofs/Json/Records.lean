import WaterPeg.Proofs.Json.Form
import WaterPeg.Records

/-! Stored records survive their JSON form. -/
namespace WaterPeg

instance : LawfulJsonForm VolumeUnit where
  written_toJson u := .string u.name
  ofJson?_toJson u := Json.choice?_choice (by cases u <;> rfl)

instance : LawfulJsonForm Confidence where
  written_toJson c := .string c.name
  ofJson?_toJson c := Json.choice?_choice (by cases c <;> rfl)

instance : LawfulJsonForm Stability where
  written_toJson s := .string s.name
  ofJson?_toJson s := Json.choice?_choice (by cases s <;> rfl)

instance : LawfulJsonForm Container where
  written_toJson c := Json.written_record (by simp [written_toJson])
  ofJson?_toJson c := by
    have h : (toJson c).fields? Container.fields = some _ := Json.fields?_record (by decide) rfl
    simp [ofJson?, h]

instance : LawfulJsonForm BandCheck where
  written_toJson c := Json.written_record (by simp [written_toJson])
  ofJson?_toJson c := by
    have h : (toJson c).fields? BandCheck.fields = some _ := Json.fields?_record (by decide) rfl
    simp [ofJson?, h]

instance : LawfulJsonForm (Reading WaterPrice) where
  written_toJson r := Json.written_record (by simp [written_toJson])
  ofJson?_toJson r := by
    have h : (toJson r).fields? WaterPrice.fields = some _ := Json.fields?_record (by decide) rfl
    simp [ofJson?, h]

instance : LawfulJsonForm (Reading ExchangeRate) where
  written_toJson r := Json.written_record (by simp [written_toJson])
  ofJson?_toJson r := by
    have h : (toJson r).fields? ExchangeRate.fields = some _ := Json.fields?_record (by decide) rfl
    simp [ofJson?, h]

instance : LawfulJsonForm Invite where
  written_toJson i := Json.written_record (by simp [written_toJson])
  ofJson?_toJson i := by
    have h : (toJson i).fields? Invite.fields = some _ := Json.fields?_record (by decide) rfl
    simp [ofJson?, h]

instance : LawfulJsonForm SourceUrl where
  written_toJson u := Json.written_record (by simp [written_toJson])
  ofJson?_toJson u := by
    have h : (toJson u).fields? SourceUrl.fields = some _ := Json.fields?_record (by decide) rfl
    simp [ofJson?, h]

instance : LawfulJsonForm Rollup where
  written_toJson r := Json.written_record (by simp [written_toJson])
  ofJson?_toJson r := by
    have h : (toJson r).fields? Rollup.fields = some _ := Json.fields?_record (by decide) rfl
    simp [ofJson?, h]

instance : LawfulJsonForm TurnoutKey where
  written_toJson k := Json.written_record (by simp [written_toJson])
  ofJson?_toJson k := by
    have h : (toJson k).fields? TurnoutKey.fields = some _ := Json.fields?_record (by decide) rfl
    simp [ofJson?, h]

instance : LawfulJsonForm Turnout where
  written_toJson t := Json.written_record (by simp [written_toJson])
  ofJson?_toJson t := by
    have h : (toJson t).fields? Turnout.fields = some _ := Json.fields?_record (by decide) rfl
    simp [ofJson?, h]

instance : LawfulJsonForm Standing where
  written_toJson s := Json.written_record (by simp [written_toJson])
  ofJson?_toJson s := by
    have h : (toJson s).fields? Standing.fields = some _ := Json.fields?_record (by decide) rfl
    simp [ofJson?, h]

instance : LawfulJsonForm PayoutRecord where
  written_toJson r := Json.written_record (by simp [written_toJson])
  ofJson?_toJson r := by
    have h : (toJson r).fields? PayoutRecord.fields = some _ := Json.fields?_record (by decide) rfl
    simp [ofJson?, h]

instance : LawfulJsonForm Totals where
  written_toJson t := Json.written_record (by simp [written_toJson])
  ofJson?_toJson t := by
    have h : (toJson t).fields? Totals.fields = some _ := Json.fields?_record (by decide) rfl
    simp [ofJson?, h]

/-! ## Kinds of records -/

namespace RecordKind

def Record : RecordKind → Type
  | .waterPrice => Reading WaterPrice
  | .exchangeRate => Reading ExchangeRate
  | .invite => Invite
  | .sourceUrl => SourceUrl
  | .rollup => Rollup
  | .turnout => Turnout
  | .firstSeen => String × UInt64
  | .standing => Standing
  | .payout => PayoutRecord
  | .totals => Totals

instance (kind : RecordKind) : JsonForm kind.Record :=
  match kind with
  | .waterPrice => inferInstanceAs (JsonForm (Reading WaterPrice))
  | .exchangeRate => inferInstanceAs (JsonForm (Reading ExchangeRate))
  | .invite => inferInstanceAs (JsonForm Invite)
  | .sourceUrl => inferInstanceAs (JsonForm SourceUrl)
  | .rollup => inferInstanceAs (JsonForm Rollup)
  | .turnout => inferInstanceAs (JsonForm Turnout)
  | .firstSeen => inferInstanceAs (JsonForm (String × UInt64))
  | .standing => inferInstanceAs (JsonForm Standing)
  | .payout => inferInstanceAs (JsonForm PayoutRecord)
  | .totals => inferInstanceAs (JsonForm Totals)

instance (kind : RecordKind) : LawfulJsonForm kind.Record := by
  cases kind with
  | waterPrice => exact inferInstanceAs (LawfulJsonForm (Reading WaterPrice))
  | exchangeRate => exact inferInstanceAs (LawfulJsonForm (Reading ExchangeRate))
  | invite => exact inferInstanceAs (LawfulJsonForm Invite)
  | sourceUrl => exact inferInstanceAs (LawfulJsonForm SourceUrl)
  | rollup => exact inferInstanceAs (LawfulJsonForm Rollup)
  | turnout => exact inferInstanceAs (LawfulJsonForm Turnout)
  | firstSeen => exact inferInstanceAs (LawfulJsonForm (String × UInt64))
  | standing => exact inferInstanceAs (LawfulJsonForm Standing)
  | payout => exact inferInstanceAs (LawfulJsonForm PayoutRecord)
  | totals => exact inferInstanceAs (LawfulJsonForm Totals)

/-- To bring a stored form into the form that is written is to read it as a record and write
that. -/
theorem canonical?_eq (kind : RecordKind) (stored : Bytes) :
    kind.canonical? stored = (decode? stored : Option kind.Record).map encode := by
  cases kind <;> rfl

/-- Records of all kinds are read back as they were written. A form that was not written here, but
can be read, is of a record that is read back as well; and what it is brought into does not change
any more. -/
theorem decode?_encode_record (kind : RecordKind) :
    (∀ r : kind.Record, decode? (encode r) = some r) ∧
      ∀ (stored : Bytes) (r : kind.Record), decode? stored = some r →
        (decode? (encode r) : Option kind.Record) = some r ∧
          kind.canonical? stored = some (encode r) ∧
          kind.canonical? (encode r) = some (encode r) := by
  refine ⟨fun r => decode?_encode r, fun stored r hread => ?_⟩
  have hself : (decode? (encode r) : Option kind.Record) = some r := decode?_encode r
  refine ⟨hself, ?_, ?_⟩
  · rw [canonical?_eq, hread, Option.map_some]
  · rw [canonical?_eq, hself, Option.map_some]

/-- Blanks and escapes that are never written can be read. -/
theorem decode?_encode_record_of_escapes :
    firstSeen.canonical? (Bytes.ofString
        "[ \"\\u004fUSD\\ud83d\\ude00\" ,\n18446744073709551615 ]") =
      some (Bytes.ofString "[\"OUSD😀\",18446744073709551615]") := by
  have hread : (decode? (Bytes.ofString
      "[ \"\\u004fUSD\\ud83d\\ude00\" ,\n18446744073709551615 ]") : Option (String × UInt64)) =
        some ("OUSD😀", 18446744073709551615) := by
    decide +kernel
  have hwritten : encode ("OUSD😀", (18446744073709551615 : UInt64)) =
      Bytes.ofString "[\"OUSD😀\",18446744073709551615]" := by
    decide +kernel
  rw [← hwritten]
  exact ((decode?_encode_record firstSeen).2 _ _ hread).2.1

end RecordKind

end WaterPeg
