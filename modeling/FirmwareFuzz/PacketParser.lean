import Mathlib.Data.List.Basic
import Mathlib.Data.Nat.Bitwise

/-!
# The packet parser

The demo program for symbolic execution: it checks a header word of four bytes,
and calls `process_packet` with the length in it.

The code tests one bit of the magic byte, adds the two bytes of the length before
it shifts them, and passes the length as a signed number. What it does in terms
of the bytes of the header is `main_eq`. A word that is accepted is parsed as the
format of the header says if its magic byte is the right one and its length a
multiple of 256 below 32768 (`decodes_iff`).
-/

namespace FirmwareFuzz.PacketParser

def sofChar : UInt32 := 0x40
def xorChar : UInt8 := 0xFC
def maxPayload : ℤ := 0xFFF

/-- Whether `process_packet` aborts. -/
def processPacket (len : Int16) : Bool := len.toInt > maxPayload

/-- The length `process_packet` is called with, if it is. -/
def main (s_header : UInt32) : Option Int16 :=
  if s_header &&& sofChar = 0x40 then
    let len0 : UInt8 := ((s_header &&& 0xFF00) >>> 8).toUInt8
    let len1 : UInt8 := ((s_header &&& 0xFF0000) >>> 16).toUInt8
    let checksum : UInt8 := ((s_header &&& 0xFF000000) >>> 24).toUInt8
    let checksum_calculated : UInt8 := xorChar ^^^ len0 ^^^ len1
    -- `len0 + len1<<8`, an `int`.
    let len : UInt16 := UInt16.ofNat ((len0.toNat + len1.toNat) <<< 8)
    if checksum = checksum_calculated then some len.toInt16 else none
  else none

/-! ## The format -/

/-- The bytes of a header, from the least to the most significant one. -/
structure Header where
  sof : UInt8
  lenL : UInt8
  lenH : UInt8
  checksum : UInt8
  deriving DecidableEq, Repr

/-- The header of a word. -/
def header (w : UInt32) : Header where
  sof := w.toUInt8
  lenL := (w >>> 8).toUInt8
  lenH := (w >>> 16).toUInt8
  checksum := (w >>> 24).toUInt8

namespace Header

/-- The length in a header. -/
def length (h : Header) : ℕ := h.lenL.toNat + 256 * h.lenH.toNat

/-- The checksum is that of the length. -/
def Checked (h : Header) : Prop := h.checksum = 0xFC ^^^ h.lenL ^^^ h.lenH

instance (h : Header) : Decidable h.Checked := inferInstanceAs (Decidable (_ = _))

end Header

/-- A word is parsed as its format says: it is accepted for its magic byte and
    its checksum, and processed with its length, which is too large above
    `MAX_PAYLOAD`. -/
def Decodes (w : UInt32) : Prop :=
  ((main w).isSome ↔ (header w).sof = 0x40 ∧ (header w).Checked) ∧
    ∀ len, main w = some len → len.toInt = (header w).length ∧
      (processPacket len ↔ maxPayload < (header w).length)

/-! ## The bytes -/

theorem toUInt8_mask (w : UInt32) : (w &&& 0xFF).toUInt8 = w.toUInt8 := by
  rw [UInt32.toUInt8_and]
  exact UInt8.and_neg_one

/-- A byte taken out of a word by a mask and a shift. -/
theorem toUInt8_mask_shiftRight {w m k : UInt32} (h : m >>> k = 0xFF) :
    ((w &&& m) >>> k).toUInt8 = (w >>> k).toUInt8 := by
  rw [UInt32.shiftRight_and, h, toUInt8_mask]

/-- The bit of the magic byte that is tested is in the lowest byte. -/
theorem and_sofChar_eq_iff (w : UInt32) : w &&& sofChar = 0x40 ↔ w.toUInt8 &&& 0x40 = 0x40 := by
  have h : (w &&& sofChar).toNat = (w.toUInt8 &&& 0x40).toNat := by
    rw [UInt32.toNat_and, UInt8.toNat_and, UInt32.toNat_toUInt8, ← Nat.and_two_pow_sub_one_eq_mod,
      Nat.and_assoc]
    rfl
  rw [← UInt32.toNat_inj, ← UInt8.toNat_inj, h]
  rfl

/-- The length as it is passed. -/
def passed (h : Header) : Int16 :=
  (UInt16.ofNat ((h.lenL.toNat + h.lenH.toNat) <<< 8)).toInt16

theorem toInt_passed (h : Header) :
    (passed h).toInt = (256 * (h.lenL.toNat + h.lenH.toNat) : ℤ).bmod (2 ^ 16) := by
  rw [passed, Nat.shiftLeft_eq, mul_comm]
  exact Int16.toInt_ofNat'

/-- What the program does with the bytes of a header. -/
theorem main_eq (w : UInt32) :
    main w = if (header w).sof &&& 0x40 = 0x40 ∧ (header w).Checked then some (passed (header w))
      else none := by
  simp only [main, and_sofChar_eq_iff, ite_and,
    toUInt8_mask_shiftRight (w := w) (show (0xFF00 : UInt32) >>> 8 = 0xFF from rfl),
    toUInt8_mask_shiftRight (w := w) (show (0xFF0000 : UInt32) >>> 16 = 0xFF from rfl),
    toUInt8_mask_shiftRight (w := w) (show (0xFF000000 : UInt32) >>> 24 = 0xFF from rfl)]
  rfl

/-! ## The condition -/

/-- The length is passed as it is if its low byte is zero and its high byte is
    no sign. -/
theorem toInt_passed_eq_iff (h : Header) :
    (passed h).toInt = h.length ↔ h.lenL = 0 ∧ h.lenH < 128 := by
  have hl := h.lenL.toNat_lt
  have hh := h.lenH.toNat_lt
  have hzero : h.lenL = 0 ↔ h.lenL.toNat = 0 := UInt8.toNat_inj.symm
  have hsign : h.lenH < 128 ↔ h.lenH.toNat < 128 := UInt8.lt_iff_toNat_lt
  rw [toInt_passed, Header.length, hzero, hsign, Int.bmod_def]
  split_ifs <;> omega

/-- A word that is not accepted is parsed as its format says, unless it is a packet. -/
theorem decodes_iff_of_none {w : UInt32} (h : main w = none) :
    Decodes w ↔ ¬((header w).sof = 0x40 ∧ (header w).Checked) := by
  rw [Decodes, h]
  simp only [Option.isSome_none, Bool.false_eq_true, false_iff, reduceCtorEq, false_imp_iff,
    implies_true, and_true]

/-- A word is parsed as its format says if and only if the bit of the magic byte
    is clear, or the checksum is wrong, or it is a packet whose length has a low
    byte of zero and a high byte below 128. -/
theorem decodes_iff (w : UInt32) :
    Decodes w ↔ (header w).sof &&& 0x40 ≠ 0x40 ∨ ¬(header w).Checked ∨
      (header w).sof = 0x40 ∧ (header w).lenL = 0 ∧ (header w).lenH < 128 := by
  have hmain := main_eq w
  by_cases hbit : (header w).sof &&& 0x40 = 0x40
  · by_cases hsum : (header w).Checked
    · -- The word is accepted.
      rw [Decodes, hmain, if_pos ⟨hbit, hsum⟩]
      simp only [Option.isSome_some, true_iff, hsum, and_true, Option.some.injEq, forall_eq', hbit,
        ne_eq, not_true, false_or, toInt_passed_eq_iff]
      refine and_congr_right fun _ => and_iff_left_of_imp fun hlen => ?_
      rw [processPacket, decide_eq_true_eq, (toInt_passed_eq_iff _).2 hlen]
    · rw [if_neg fun h => hsum h.2] at hmain
      rw [decodes_iff_of_none hmain]
      exact iff_of_true (fun h => hsum h.2) (.inr (.inl hsum))
  · rw [if_neg fun h => hbit h.1] at hmain
    rw [decodes_iff_of_none hmain]
    refine iff_of_true (fun h => hbit ?_) (.inl hbit)
    rw [h.1]
    rfl

/-- Three words that are accepted: a length of 1 is passed as 256, a magic byte
    of 0x41 is not noticed, and a length of 32768 is passed as -32768. -/
theorem main_mistakes :
    (main 0xFD000140 = some 256 ∧ ¬Decodes 0xFD000140) ∧
      (main 0xFC000041 = some 0 ∧ ¬Decodes 0xFC000041) ∧
      main 0x7C800040 = some (-32768) ∧ ¬Decodes 0x7C800040 := by
  refine ⟨⟨rfl, fun h => ?_⟩, ⟨rfl, fun h => ?_⟩, rfl, fun h => ?_⟩
  · exact absurd (h.2 256 rfl).1 (by decide)
  · exact absurd (h.1.1 rfl).1 (by decide)
  · exact absurd (h.2 (-32768) rfl).1 (by decide)

end FirmwareFuzz.PacketParser
