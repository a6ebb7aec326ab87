import Mathlib.Tactic.IntervalCases
import Systolic.Proofs.Instruction.Reach

/-
  This file proves which words are read as instructions: the
  words of instructions, and words of the idle instruction with
  bits set above the lowest 64 of its one reserved field.

  Key definitions include:
    * `Machine.Counted`
    * `WordLayout.digits`
    * `WordLayout.StrayNoOp`

  Key theorems include:
    * `Instruction.ofFields_eq_ok`
    * `WordLayout.assemble_digits`
    * `WordLayout.decodeWord_noOp_iff`
    * `WordLayout.decode_canonical`
-/

namespace Systolic

------------------------------------------------------------
-- Bytes
------------------------------------------------------------

/- The number with given bytes has as many digits. -/
theorem ofLittleEndian_lt (bytes : List UInt8) :
    ofLittleEndian bytes < 256 ^ bytes.length := by
  induction bytes with
  | nil => simp [ofLittleEndian]
  | cons b bs ih =>
      have hByte : b.toNat < 256 := b.toNat_lt
      rw [ofLittleEndian, List.length_cons, Nat.pow_succ]
      omega

/- The number with given bytes gives them back. -/
theorem littleEndian_ofLittleEndian (bytes : List UInt8) :
    littleEndian bytes.length (ofLittleEndian bytes) = bytes := by
  induction bytes with
  | nil => rfl
  | cons b bs ih =>
      have hByte : b.toNat < 256 := b.toNat_lt
      have hLow : (b.toNat + 256 * ofLittleEndian bs) % 256 = b.toNat := by
        omega
      have hHigh :
          (b.toNat + 256 * ofLittleEndian bs) / 256 = ofLittleEndian bs := by
        omega
      rw [ofLittleEndian, List.length_cons, littleEndian, hLow, hHigh, ih]
      simp [Nat.toUInt8]

------------------------------------------------------------
-- Fields of Instructions
------------------------------------------------------------

namespace Instruction

/- The instruction of given fields has these fields. -/
theorem ofFields_eq_ok
    {op : Opcode}
    {flags : Nat}
    {value : FieldName → Nat}
    {i : Instruction}
    (hFields : ofFields op flags value = .ok i) :
    i.opcode = op ∧ i.flags = flags ∧
      ∀ operand ∈ i.operands, operand.2 = value operand.1 := by
  cases op with
  | noOp =>
      simp only [ofFields] at hFields
      split at hFields
      case isFalse => cases hFields
      case isTrue hFlags =>
        cases hFields
        exact ⟨rfl, hFlags.symm, by simp [operands]⟩
  | matMul =>
      simp only [ofFields] at hFields
      split at hFields
      case isFalse => cases hFields
      case isTrue hFlags =>
        cases hFields
        refine ⟨rfl, ?_, by simp [operands]⟩
        interval_cases flags <;> rfl
  | dataMove =>
      simp only [ofFields] at hFields
      split at hFields
      case h_1 direction hDirection =>
        cases hFields
        have hBits : direction.bits = flags := by
          simpa using List.find?_some hDirection
        exact ⟨rfl, hBits, by simp [operands]⟩
      case h_2 => cases hFields
  | loadWeight =>
      simp only [ofFields] at hFields
      split at hFields
      case isFalse => cases hFields
      case isTrue hFlags =>
        cases hFields
        refine ⟨rfl, ?_, by simp [operands]⟩
        interval_cases flags <;> rfl
  | simd =>
      simp only [ofFields] at hFields
      split at hFields
      case isFalse => cases hFields
      case isTrue hFlags =>
        split at hFields
        case h_1 sop hSelector =>
          cases hFields
          have hBits : sop.bits = value .simdOp := by
            simpa using List.find?_some hSelector
          refine ⟨rfl, ?_, by simp [operands, hBits]⟩
          interval_cases flags <;> rfl
        case h_2 => cases hFields

end Instruction

/- Every depth of a machine is a count. -/
def Machine.Counted (m : Machine) : Prop :=
  ∀ store, m.depth store < Count.limit

namespace WordLayout

------------------------------------------------------------
-- Narrow Slots
------------------------------------------------------------

/- Slots of at most 64 bits, and a padding that is shorter than a byte. -/
structure Narrow (w : WordLayout) : Prop where
  slot0_le : w.slot0 ≤ 64
  slot1_le : w.slot1 ≤ 64
  slot2_lt : w.slot2 < 64
  padding_lt : w.flagsOffset < w.slot0 + w.slot1 + w.slot2 + 8

theorem bitsFor_le
    {count : Nat}
    (hCount : count < Count.limit) :
    bitsFor count ≤ 64 := by
  unfold bitsFor
  split
  case isTrue => decide
  case isFalse hLarge =>
    have hLog : Nat.log2 (count - 1) < 64 := by
      rw [Nat.log2_lt (by omega)]
      exact Nat.lt_of_le_of_lt (Nat.sub_le _ _) hCount
    omega

theorem narrow_of_ofMachine
    {m : Machine}
    {w : WordLayout}
    (hLayout : ofMachine m = .ok w)
    (hCounted : m.Counted) :
    w.Narrow := by
  have hSize := (wide_of_ofMachine hLayout).size_le
  have hSound := sound_of_ofMachine hLayout
  have hLocal := bitsFor_le (hCounted .scratchpad)
  have hAccumulator := bitsFor_le (hCounted .accumulator)
  have hDram : m.dramBits ≤ 64 :=
    bitsFor_le (max_lt (hCounted .dram0) (hCounted .dram1))
  unfold ofMachine at hLayout
  simp only at hLayout
  split at hLayout
  case isFalse => cases hLayout
  case isTrue =>
    cases hLayout
    constructor
    case slot0_le => exact max_le hLocal (by decide)
    case slot1_le => exact max_le hAccumulator hDram
    case slot2_lt => exact (Nat.pow_lt_pow_iff_right (by decide)).mp hSize
    case padding_lt =>
      simp only [Count.roundUp, Count.ceilDiv, flagsBits, opcodeBits,
        flagsOffset]
      omega

------------------------------------------------------------
-- Digits
------------------------------------------------------------

/- The lowest bits of a number in two parts. -/
theorem mod_two_pow_add
    (word offset width : Nat) :
    word % 2 ^ (offset + width) =
      word % 2 ^ offset + word / 2 ^ offset % 2 ^ width * 2 ^ offset := by
  rw [Nat.pow_add, Nat.mod_mul, Nat.mul_comm (2 ^ offset)]

/- What the slots, the flags and the opcode of a word hold. -/
def digits
    (w : WordLayout)
    (word : Nat) : Contents :=
  { slot0 := word / 2 ^ 0 % 2 ^ w.slot0
    slot1 := word / 2 ^ w.slot0 % 2 ^ w.slot1
    slot2 := word / 2 ^ (w.slot0 + w.slot1) % 2 ^ w.slot2
    flags := word / 2 ^ w.flagsOffset % 16
    opcode := word / 2 ^ w.opcodeOffset % 16 }

/- What stands between the slots and the flags of a word. -/
def padding
    (w : WordLayout)
    (word : Nat) : Nat :=
  word / 2 ^ (w.slot0 + w.slot1 + w.slot2) %
    2 ^ (w.flagsOffset - (w.slot0 + w.slot1 + w.slot2))

section Digits

variable {w : WordLayout} {word : Nat}

/- A word is what is below its flags, its flags and its opcode. -/
theorem eq_low_add
    (hWord : word < 2 ^ (w.flagsOffset + 8)) :
    word =
      word % 2 ^ w.flagsOffset +
        (w.digits word).flags * 2 ^ w.flagsOffset +
        (w.digits word).opcode * 2 ^ w.opcodeOffset := by
  have hOpcode := mod_two_pow_add word w.opcodeOffset 4
  have hFlags := mod_two_pow_add word w.flagsOffset 4
  have hWhole : word % 2 ^ (w.opcodeOffset + 4) = word :=
    Nat.mod_eq_of_lt hWord
  rw [hWhole] at hOpcode
  exact hOpcode.trans (congrArg (· + _) hFlags)

/- A word without padding is put together from its digits. -/
theorem assemble_digits
    (hSound : w.Sound)
    (hWord : word < 2 ^ (w.flagsOffset + 8))
    (hPadding : w.padding word = 0) :
    w.assemble (w.digits word) = word := by
  have hSlots : word % 2 ^ w.flagsOffset =
      (w.digits word).slot0 + (w.digits word).slot1 * 2 ^ w.slot0 +
        (w.digits word).slot2 * 2 ^ (w.slot0 + w.slot1) := by
    have hLow :=
      mod_two_pow_add word (w.slot0 + w.slot1 + w.slot2)
        (w.flagsOffset - (w.slot0 + w.slot1 + w.slot2))
    rw [Nat.add_sub_cancel' hSound.slots_le] at hLow
    rw [hLow, mod_two_pow_add _ (w.slot0 + w.slot1),
      mod_two_pow_add _ w.slot0]
    simp only [padding] at hPadding
    simp [hPadding, digits]
  conv_rhs => rw [eq_low_add hWord, hSlots]
  rfl

end Digits

------------------------------------------------------------
-- Reserved Digits
------------------------------------------------------------

section Reserved

variable {w : WordLayout} {word : Nat}

theorem Sound.slot0_pos
    (hSound : w.Sound) :
    0 < w.slot0 :=
  Nat.lt_of_lt_of_le (by decide) hSound.slot0_le

/- The idle instruction reserves everything below the flags. -/
theorem fields_noOp
    (hSound : w.Sound) :
    w.fields .noOp =
      [ { name := .reserved, offset := 0, width := w.flagsOffset },
        { name := .flags, offset := w.flagsOffset, width := flagsBits },
        { name := .opcode, offset := w.opcodeOffset
          width := opcodeBits } ] := by
  have h0 := hSound.slot0_pos.ne'
  have h1 := hSound.slot1_pos.ne'
  have h2 := hSound.slot2_pos.ne'
  have hSlots := hSound.slots_le
  simp only [fields, slotNames, place, Nat.zero_add]
  by_cases hPad : w.flagsOffset - (w.slot0 + w.slot1 + w.slot2) = 0
  · simp [hPad, h0, h1, h2, Field.IsReserved, flagsBits, opcodeBits,
      opcodeOffset]
    omega
  · simp [hPad, h0, h1, h2, Field.IsReserved, flagsBits, opcodeBits,
      opcodeOffset]
    omega

/- A field of at most 64 bits is extracted as a whole. -/
theorem extract_eq
    {f : Field}
    (hWidth : f.width ≤ 64) :
    f.extract word = word / 2 ^ f.offset % 2 ^ f.width := by
  rw [Field.extract]
  apply Nat.mod_eq_of_lt
  exact Nat.lt_of_lt_of_le (Nat.mod_lt _ (Nat.two_pow_pos _))
    (Nat.pow_le_pow_right (by decide) hWidth)

/- A part with a name of its own is a field of its own. -/
theorem place_named
    {name : FieldName}
    {width : Nat}
    (hName : name ≠ .reserved)
    (hWidth : width ≠ 0)
    (offset : Nat)
    (rest : List (FieldName × Nat)) :
    place offset ((name, width) :: rest) =
      { name, offset, width } :: place (offset + width) rest := by
  rw [place, if_neg hWidth]
  cases place (offset + width) rest with
  | nil => rfl
  | cons f fs => simp [hName]

/- A reserved part right before a named one is a field of its own. -/
theorem place_reserved
    {name : FieldName}
    {width next : Nat}
    (hName : name ≠ .reserved)
    (hWidth : width ≠ 0)
    (hNext : next ≠ 0)
    (offset : Nat)
    (rest : List (FieldName × Nat)) :
    place offset ((.reserved, width) :: (name, next) :: rest) =
      { name := .reserved, offset, width } ::
        place (offset + width) ((name, next) :: rest) := by
  rw [place, if_neg hWidth, place_named hName hNext]
  simp [Field.IsReserved, hName]

/- The slot that a weight load does not use is a reserved field. -/
theorem mem_fields_loadWeight
    (hSound : w.Sound) :
    { name := .reserved, offset := w.slot0, width := w.slot1 } ∈
      w.fields .loadWeight := by
  have h0 := hSound.slot0_pos.ne'
  have h1 := hSound.slot1_pos.ne'
  have h2 := hSound.slot2_pos.ne'
  simp [fields, slotNames, place_named, place_reserved, h0, h1, h2]

/- Padding behind a slot in use is a reserved field. -/
theorem mem_fields_padding
    {op : Opcode}
    (hSound : w.Sound)
    (hOp : op ≠ .noOp)
    (hPadding : w.flagsOffset - (w.slot0 + w.slot1 + w.slot2) ≠ 0) :
    { name := .reserved, offset := w.slot0 + w.slot1 + w.slot2
      width := w.flagsOffset - (w.slot0 + w.slot1 + w.slot2) } ∈
      w.fields op := by
  have h0 := hSound.slot0_pos.ne'
  have h1 := hSound.slot1_pos.ne'
  have h2 := hSound.slot2_pos.ne'
  cases op with
  | noOp => exact absurd rfl hOp
  | _ =>
      simp [fields, slotNames, place_named, place_reserved, h0, h1, h2,
        hPadding, flagsBits]

/-
  The reserved parts of any other instruction are narrow, so the
  check of its reserved fields sees all of their bits.
-/
theorem reserved_digits
    {op : Opcode}
    (hSound : w.Sound)
    (hNarrow : w.Narrow)
    (hOp : op ≠ .noOp)
    (hClear :
      (w.fields op).any (fun f =>
        f.IsReserved ∧ f.extract word ≠ 0) = false) :
    w.padding word = 0 ∧
      (op = .loadWeight → (w.digits word).slot1 = 0) := by
  simp only [List.any_eq_false, decide_eq_true_eq, not_and, not_not]
    at hClear
  constructor
  · rw [padding]
    by_cases hEmpty :
        w.flagsOffset - (w.slot0 + w.slot1 + w.slot2) = 0
    · rw [hEmpty, Nat.pow_zero, Nat.mod_one]
    · have hNone := hClear _ (mem_fields_padding hSound hOp hEmpty) rfl
      rw [extract_eq (by have := hNarrow.padding_lt; simp only; omega)]
        at hNone
      exact hNone
  · rintro rfl
    have hNone := hClear _ (mem_fields_loadWeight hSound) rfl
    rw [extract_eq hNarrow.slot1_le] at hNone
    exact hNone

end Reserved

------------------------------------------------------------
-- Words with Operands
------------------------------------------------------------

section Operands

variable {w : WordLayout} {word : Nat} {i : Instruction}

theorem slotWidth_le
    (hNarrow : w.Narrow)
    (name : FieldName) :
    w.slotWidth name ≤ 64 := by
  have h0 := hNarrow.slot0_le
  have h1 := hNarrow.slot1_le
  have h2 := hNarrow.slot2_lt
  cases name <;> simp only [slotWidth, flagsBits, opcodeBits] <;> omega

/- An operand is read from its slot, which is narrow. -/
theorem operandOf_eq
    {operand : FieldName × Nat}
    (hSound : w.Sound)
    (hNarrow : w.Narrow)
    (hMem : operand ∈ i.operands) :
    w.operandOf i.opcode word operand.1 =
      word / 2 ^ w.slotOffset operand.1 % 2 ^ w.slotWidth operand.1 +
        if operand.1 = .size then 1 else 0 := by
  have hExtract :
      (w.slot operand.1).extract word =
        word / 2 ^ w.slotOffset operand.1 % 2 ^ w.slotWidth operand.1 :=
    extract_eq (slotWidth_le hNarrow operand.1)
  have hName : (w.slot operand.1).name = operand.1 := rfl
  rw [operandOf, field?_operand hSound hMem]
  simp only [Field.operand, hName, hExtract]
  split <;> rfl

/- Operands that are read from a word are in range, and counts. -/
theorem inRange_of_read
    (hSound : w.Sound)
    (hNarrow : w.Narrow)
    (hRead :
      ∀ operand ∈ i.operands,
        operand.2 = w.operandOf i.opcode word operand.1) :
    i.Counted ∧ ∀ operand ∈ i.operands, w.InRange operand := by
  have hOperand :
      ∀ operand ∈ i.operands,
        operand.2 < Count.limit ∧ w.InRange operand := by
    intro operand hMem
    have hValue := hRead operand hMem
    rw [operandOf_eq hSound hNarrow hMem] at hValue
    have hDigit :
        word / 2 ^ w.slotOffset operand.1 % 2 ^ w.slotWidth operand.1 <
          2 ^ w.slotWidth operand.1 :=
      Nat.mod_lt _ (Nat.two_pow_pos _)
    unfold InRange
    by_cases hSize : operand.1 = .size
    · have hSlot : 2 ^ w.slotWidth .size < Count.limit :=
        Nat.pow_lt_pow_right (by decide) hNarrow.slot2_lt
      rw [hSize] at hValue hDigit
      rw [if_pos hSize, hSize]
      rw [if_pos rfl] at hValue
      omega
    · have hSlot : 2 ^ w.slotWidth operand.1 ≤ Count.limit :=
        Nat.pow_le_pow_right (by decide) (slotWidth_le hNarrow operand.1)
      rw [if_neg hSize]
      rw [if_neg hSize] at hValue
      omega
  exact ⟨fun operand hMem => (hOperand operand hMem).1,
    fun operand hMem => (hOperand operand hMem).2⟩

/- An instruction that is read from a word holds its digits. -/
theorem contents_of_read
    (hSound : w.Sound)
    (hNarrow : w.Narrow)
    (hOp : i.opcode ≠ .noOp)
    (hOpcode : i.opcode.bits = (w.digits word).opcode)
    (hFlags : i.flags = (w.digits word).flags)
    (hSlot1 : i.opcode = .loadWeight → (w.digits word).slot1 = 0)
    (hRead :
      ∀ operand ∈ i.operands,
        operand.2 = w.operandOf i.opcode word operand.1) :
    i.contents = w.digits word := by
  have hStored :
      ∀ operand ∈ i.operands,
        stored operand =
          word / 2 ^ w.slotOffset operand.1 %
            2 ^ w.slotWidth operand.1 := by
    intro operand hMem
    have hValue := hRead operand hMem
    rw [operandOf_eq hSound hNarrow hMem] at hValue
    rw [stored, hValue]
    split <;> rfl
  cases i with
  | noOp => exact absurd rfl hOp
  | _ =>
      simp only [Instruction.operands, List.forall_mem_cons, stored,
        slotOffset, slotWidth, Instruction.opcode, Instruction.contents]
        at *
      simp_all [digits]

end Operands

------------------------------------------------------------
-- Accepted Words
------------------------------------------------------------

section Accepted

variable {w : WordLayout} {index word : Nat} {i : Instruction}

/- A word that is read has an opcode, clear fields and valid flags. -/
theorem decodeWord_eq_ok
    (hDecode : w.decodeWord index word = .ok i) :
    i.opcode.bits = (w.digits word).opcode ∧
      i.flags = (w.digits word).flags ∧
      (w.fields i.opcode).any (fun f =>
        f.IsReserved ∧ f.extract word ≠ 0) = false ∧
      ∀ operand ∈ i.operands,
        operand.2 = w.operandOf i.opcode word operand.1 := by
  simp only [decodeWord] at hDecode
  split at hDecode
  case h_1 => cases hDecode
  case h_2 op hOp =>
    split at hDecode
    case isTrue => cases hDecode
    case isFalse hClear =>
      split at hDecode
      case h_1 j hFields =>
        cases hDecode
        rcases Instruction.ofFields_eq_ok hFields with
          ⟨rfl, hFlags, hOperands⟩
        have hBits : i.opcode.bits = (w.digits word).opcode := by
          simpa [digits] using List.find?_some hOp
        exact ⟨hBits, hFlags, Bool.eq_false_iff.mpr hClear, hOperands⟩
      case h_2 => cases hDecode
      case h_3 => cases hDecode

/- A word that is read, and not as idle, is the word of what is read. -/
theorem assemble_of_decodeWord
    (hSound : w.Sound)
    (hNarrow : w.Narrow)
    (hWord : word < 2 ^ (w.flagsOffset + 8))
    (hOp : i ≠ .noOp)
    (hDecode : w.decodeWord index word = .ok i) :
    i.Counted ∧ (∀ operand ∈ i.operands, w.InRange operand) ∧
      w.assemble i.contents = word := by
  have hOpcode : i.opcode ≠ .noOp := by
    cases i <;> simp_all [Instruction.opcode]
  rcases decodeWord_eq_ok hDecode with ⟨hBits, hFlags, hClear, hRead⟩
  rcases reserved_digits hSound hNarrow hOpcode hClear with
    ⟨hPadding, hSlot1⟩
  rcases inRange_of_read hSound hNarrow hRead with ⟨hCounted, hRange⟩
  have hContents :=
    contents_of_read hSound hNarrow hOpcode hBits hFlags hSlot1 hRead
  refine ⟨hCounted, hRange, ?_⟩
  rw [hContents]
  exact assemble_digits hSound hWord hPadding

/-
  A word is read as idle if it has neither flags nor an opcode,
  and none of its lowest 64 bits is set. Higher bits of the one
  reserved field are not looked at.
-/
theorem decodeWord_noOp_iff
    (hSound : w.Sound)
    (hWord : word < 2 ^ (w.flagsOffset + 8)) :
    w.decodeWord index word = .ok .noOp ↔
      word < 2 ^ w.flagsOffset ∧ Count.limit ∣ word := by
  constructor
  · intro hDecode
    rcases decodeWord_eq_ok hDecode with ⟨hBits, hFlags, hClear, -⟩
    have hLow : word = word % 2 ^ w.flagsOffset := by
      have hSum := eq_low_add hWord
      rw [← hBits, ← hFlags] at hSum
      simpa [Instruction.flags, Instruction.opcode, Opcode.bits] using hSum
    rw [Instruction.opcode, fields_noOp hSound] at hClear
    simp only [List.any_cons, Field.IsReserved, Field.extract,
      Nat.pow_zero, Nat.div_one, ← hLow] at hClear
    simp only [Bool.or_eq_false_iff, decide_eq_false_iff_not, not_and,
      not_not, forall_const] at hClear
    constructor
    · rw [hLow]
      exact Nat.mod_lt _ (Nat.two_pow_pos _)
    · exact Nat.dvd_of_mod_eq_zero hClear.1
  · rintro ⟨hLow, hDvd⟩
    have hFlags : word / 2 ^ w.flagsOffset = 0 := Nat.div_eq_of_lt hLow
    have hOpcode : word / 2 ^ w.opcodeOffset = 0 :=
      Nat.div_eq_of_lt (Nat.lt_of_lt_of_le hLow
        (Nat.pow_le_pow_right (by decide) (Nat.le_add_right _ _)))
    have hClear :
        (w.fields .noOp).any (fun f =>
          f.IsReserved ∧ f.extract word ≠ 0) = false := by
      rw [fields_noOp hSound]
      simp [Field.IsReserved, Field.extract, Nat.mod_eq_of_lt hLow,
        Nat.mod_eq_zero_of_dvd hDvd]
    have hBits : Opcode.ofBits? 0 = some .noOp := rfl
    simp only [decodeWord, hOpcode, hFlags, Nat.zero_mod, hBits, hClear,
      Bool.false_eq_true, if_false, Instruction.ofFields, if_true]

end Accepted

/-
  Bytes of a word that is read as idle but is not the word of the
  idle instruction: bits are set above the lowest 64.
-/
def StrayNoOp
    (w : WordLayout)
    (bytes : List UInt8) : Prop :=
  bytes.length = w.wordBytes ∧ 0 < ofLittleEndian bytes ∧
    ofLittleEndian bytes < 2 ^ w.flagsOffset ∧
    Count.limit ∣ ofLittleEndian bytes

instance
    (w : WordLayout)
    (bytes : List UInt8) :
    Decidable (w.StrayNoOp bytes) := by
  unfold StrayNoOp
  infer_instance

section Canonical

variable {w : WordLayout}

/- The bytes of a word hold its bits. -/
theorem pow_wordBytes
    (hSound : w.Sound) :
    256 ^ w.wordBytes = 2 ^ (w.flagsOffset + 8) := by
  rw [show (256 : Nat) = 2 ^ 8 from rfl, ← Nat.pow_mul,
    ← hSound.bytes_eq, hSound.wordBits_eq]

/- The word of the idle instruction has no bits. -/
theorem encode_noOp
    (hSound : w.Sound) :
    w.encode .noOp = .ok (littleEndian w.wordBytes 0) := by
  have hCounted : Instruction.noOp.Counted := by decide
  rw [encode_eq hSound hCounted]
  simp [Instruction.operands, assemble, Instruction.contents,
    Instruction.flags, Instruction.opcode, Opcode.bits]

/- Stray words are those of machines with words of more than nine bytes. -/
theorem exists_strayNoOp_iff
    (hSound : w.Sound) :
    (∃ bytes, w.StrayNoOp bytes) ↔ 72 < w.wordBits := by
  have hBits := hSound.wordBits_eq
  constructor
  · rintro ⟨bytes, -, hPos, hLow, hDvd⟩
    have hLimit : 2 ^ 64 < 2 ^ w.flagsOffset :=
      Nat.lt_of_le_of_lt (Nat.le_of_dvd hPos hDvd) hLow
    have := (Nat.pow_lt_pow_iff_right (by decide)).mp hLimit
    omega
  · intro hWide
    have hLimit : Count.limit < 2 ^ w.flagsOffset :=
      Nat.pow_lt_pow_right (by decide) (by omega)
    have hFits : Count.limit < 256 ^ w.wordBytes := by
      rw [pow_wordBytes hSound]
      exact Nat.lt_of_lt_of_le hLimit
        (Nat.pow_le_pow_right (by decide) (Nat.le_add_right _ _))
    refine ⟨littleEndian w.wordBytes Count.limit, length_littleEndian _ _, ?_⟩
    rw [ofLittleEndian_littleEndian, Nat.mod_eq_of_lt hFits]
    exact ⟨by decide, hLimit, dvd_rfl⟩

/-
  Which words are read. A word is read as an instruction if it is
  the word of this instruction, and else only as idle, if it is a
  stray word. A machine has stray words exactly if its words have
  more than 72 bits.
-/
theorem decode_canonical
    {m : Machine}
    (hLayout : ofMachine m = .ok w)
    (hCounted : m.Counted) :
    (∀ (index : Nat) (bytes : List UInt8) (i : Instruction),
      w.decode index bytes = .ok i ↔
        (i.Counted ∧ w.encode i = .ok bytes) ∨
          (i = .noOp ∧ w.StrayNoOp bytes)) ∧
    ((∃ bytes, w.StrayNoOp bytes) ↔ 72 < w.wordBits) := by
  have hSound := sound_of_ofMachine hLayout
  have hNarrow := narrow_of_ofMachine hLayout hCounted
  refine ⟨?_, exists_strayNoOp_iff hSound⟩
  intro index bytes i
  constructor
  · intro hDecode
    rw [decode] at hDecode
    split at hDecode
    case isFalse => cases hDecode
    case isTrue hLength =>
      have hWord := ofLittleEndian_lt bytes
      rw [hLength, pow_wordBytes hSound] at hWord
      have hBytes := littleEndian_ofLittleEndian bytes
      rw [hLength] at hBytes
      by_cases hOp : i = .noOp
      · subst hOp
        rcases (decodeWord_noOp_iff hSound hWord).mp hDecode with
          ⟨hLow, hDvd⟩
        rcases Nat.eq_zero_or_pos (ofLittleEndian bytes) with
          hZero | hPos
        · refine .inl ⟨by decide, ?_⟩
          rw [encode_noOp hSound, ← hZero, hBytes]
        · exact .inr ⟨rfl, hLength, hPos, hLow, hDvd⟩
      · rcases assemble_of_decodeWord hSound hNarrow hWord hOp
            hDecode with ⟨hCounts, hRange, hAssemble⟩
        refine .inl ⟨hCounts, (encode_ok_iff hSound hCounts).mpr
          ⟨hRange, ?_⟩⟩
        rw [hAssemble, hBytes]
  · rintro (⟨hCounts, hEncode⟩ | ⟨rfl, hLength, -, hLow, hDvd⟩)
    · exact decode_of_encode hSound hCounts hEncode index
    · have hWord := ofLittleEndian_lt bytes
      rw [hLength, pow_wordBytes hSound] at hWord
      rw [decode, if_pos hLength]
      exact (decodeWord_noOp_iff hSound hWord).mpr ⟨hLow, hDvd⟩

end Canonical

/- A machine with addresses of fifty bits in DRAM, and words of ten bytes. -/
def deepDram : Machine :=
  { Machine.standard with dram0Depth := 2 ^ 50 }

def deepDramLayout : WordLayout :=
  { slot0 := 11, slot1 := 50, slot2 := 11, wordBits := 80 }

/- A word with the highest bits of all its operands set is its own word. -/
theorem decode_canonical_deepDram :
    ofMachine deepDram = .ok deepDramLayout ∧
    deepDramLayout.encode
        (.dataMove .dram0ToLocal 2047 (2 ^ 50 - 1) 2048) =
      .ok [255, 255, 255, 255, 255, 255, 255, 255, 255, 32] := by
  have hLayout : ofMachine deepDram = .ok deepDramLayout := by decide
  have hCounted : deepDram.Counted := by
    intro store
    cases store <;> decide
  have hDecode :
      deepDramLayout.decode 0
          [255, 255, 255, 255, 255, 255, 255, 255, 255, 32] =
        .ok (.dataMove .dram0ToLocal 2047 (2 ^ 50 - 1) 2048) := by
    decide
  rcases ((decode_canonical hLayout hCounted).1 _ _ _).mp hDecode with
    ⟨-, hEncode⟩ | ⟨hNoOp, -⟩
  · exact ⟨hLayout, hEncode⟩
  · cases hNoOp

/- A reserved bit above the lowest 64 is not noticed. -/
theorem decode_deepDram_reserved :
    ofMachine deepDram = .ok deepDramLayout ∧
    deepDramLayout.decode 0 [0, 0, 0, 0, 0, 0, 0, 0, 1, 0] = .ok .noOp ∧
    deepDramLayout.encode .noOp ≠ .ok [0, 0, 0, 0, 0, 0, 0, 0, 1, 0] := by
  decide

end WordLayout

end Systolic
