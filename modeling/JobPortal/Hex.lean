import Mathlib.Data.List.Basic
import Mathlib.Data.UInt
import Mathlib.Tactic.IntervalCases

/-! Hexadecimal text of byte strings: the encoder writes two lowercase digits a byte,
the decoder reads either case and keeps what it has read when the text is malformed. -/
namespace JobPortal.Hex

abbrev Bytes := List UInt8

def utf8 (s : String) : Bytes := s.toUTF8.data.toList

theorem utf8_injective : Function.Injective utf8 := by
  intro s t h
  exact String.toByteArray_inj.mp (ByteArray.ext (Array.toList_inj.mp h))

theorem utf8_ofList (cs : List Char) : utf8 (String.ofList cs) = cs.flatMap String.utf8EncodeChar := by
  change (String.ofList cs).toByteArray.data.toList = _
  rw [String.toByteArray_ofList, List.utf8Encode, List.toList_data_toByteArray]

def encodeByte (b : UInt8) : List Char :=
  [Nat.digitChar (b.toNat / 16), Nat.digitChar (b.toNat % 16)]

def encodeToString (bs : Bytes) : String := String.ofList (bs.flatMap encodeByte)

def fromHexChar (c : UInt8) : Option ℕ :=
  if 48 ≤ c ∧ c ≤ 57 then some (c.toNat - 48)
  else if 97 ≤ c ∧ c ≤ 102 then some (c.toNat - 97 + 10)
  else if 65 ≤ c ∧ c ≤ 70 then some (c.toNat - 65 + 10)
  else none

/-- Decode pairs of digits up to the first malformed pair. -/
def decode : Bytes → Bytes
  | a :: b :: cs =>
    match fromHexChar a, fromHexChar b with
    | some x, some y => UInt8.ofNat (16 * x + y) :: decode cs
    | _, _ => []
  | _ => []

/-- The bytes decoded before the error, if there is one; the error itself is dropped. -/
def decodeString (s : String) : Bytes := decode (utf8 s)

theorem utf8_digitChar {n : ℕ} (h : n < 16) :
    ∃ c, String.utf8EncodeChar (Nat.digitChar n) = [c] ∧ fromHexChar c = some n := by
  interval_cases n <;> exact ⟨_, rfl, by decide⟩

/-- A byte is written as two digits, which read back as its two halves. -/
theorem utf8_encodeByte (b : UInt8) : ∃ hi lo x y,
    (encodeByte b).flatMap String.utf8EncodeChar = [hi, lo] ∧ fromHexChar hi = some x ∧
      fromHexChar lo = some y ∧ UInt8.ofNat (16 * x + y) = b := by
  have hb := b.toNat_lt
  obtain ⟨hi, hhi, hhival⟩ := utf8_digitChar (show b.toNat / 16 < 16 by omega)
  obtain ⟨lo, hlo, hloval⟩ := utf8_digitChar (show b.toNat % 16 < 16 by omega)
  refine ⟨hi, lo, _, _, ?_, hhival, hloval, ?_⟩
  · simp [encodeByte, hhi, hlo]
  · have hsum : 16 * (b.toNat / 16) + b.toNat % 16 = b.toNat := by omega
    rw [hsum, UInt8.ofNat_toNat]

theorem decode_encode (bs : Bytes) :
    decode ((bs.flatMap encodeByte).flatMap String.utf8EncodeChar) = bs := by
  induction bs with
  | nil => rfl
  | cons b bs ih =>
    obtain ⟨hi, lo, x, y, hdigits, hhi, hlo, hbyte⟩ := utf8_encodeByte b
    rw [List.flatMap_cons, List.flatMap_append, hdigits]
    simp [decode, hhi, hlo, hbyte, ih]

@[simp] theorem decodeString_encode (bs : Bytes) : decodeString (encodeToString bs) = bs := by
  rw [decodeString, encodeToString, utf8_ofList, decode_encode]

theorem encodeToString_injective : Function.Injective encodeToString := by
  intro as bs h
  simpa using congrArg decodeString h

@[simp] theorem encodeToString_inj {as bs : Bytes} :
    encodeToString as = encodeToString bs ↔ as = bs := encodeToString_injective.eq_iff

/-- Both cases of a digit decode alike, so a text is not determined by its bytes. -/
example : decodeString "aF0" = decodeString "Af" := by decide

end JobPortal.Hex
