import Mathlib.Data.List.Basic
import Mathlib.Tactic.Ring
import Systolic.Instruction.Codec

/-
  This file places the operands of every kind of instruction in
  the three slots of a word, and reads the parts of a word that
  is put together from slots, flags and opcode.

  Key definitions include:
    * `WordLayout.Sound`
    * `WordLayout.Contents`
    * `WordLayout.assemble`

  Key theorems include:
    * `WordLayout.sound_of_ofMachine`
    * `WordLayout.field?_operand`
    * `WordLayout.assemble_lt`
-/

namespace Systolic

------------------------------------------------------------
-- Positional Notation
------------------------------------------------------------

/- The digit at a position of a number, above and below others. -/
theorem div_mod_two_pow
    {low digit offset width : Nat}
    (high : Nat)
    (hLow : low < 2 ^ offset)
    (hDigit : digit < 2 ^ width) :
    (low + digit * 2 ^ offset + high * 2 ^ (offset + width)) /
        2 ^ offset % 2 ^ width = digit := by
  have hSplit :
      low + digit * 2 ^ offset + high * 2 ^ (offset + width) =
        low + 2 ^ offset * (digit + 2 ^ width * high) := by
    rw [Nat.pow_add]
    ring
  rw [hSplit, Nat.add_mul_div_left _ _ (Nat.two_pow_pos offset),
    Nat.div_eq_of_lt hLow, Nat.zero_add, Nat.add_mul_mod_self_left,
    Nat.mod_eq_of_lt hDigit]

/- A digit above a small number keeps the sum small. -/
theorem add_mul_two_pow_lt
    {low digit offset width : Nat}
    (hLow : low < 2 ^ offset)
    (hDigit : digit < 2 ^ width) :
    low + digit * 2 ^ offset < 2 ^ (offset + width) := by
  have hStep : (digit + 1) * 2 ^ offset ≤ 2 ^ width * 2 ^ offset :=
    Nat.mul_le_mul_right _ hDigit
  rw [Nat.pow_add, Nat.mul_comm (2 ^ offset)]
  rw [Nat.add_mul] at hStep
  omega

------------------------------------------------------------
-- Bytes
------------------------------------------------------------

@[simp] theorem length_littleEndian
    (n word : Nat) :
    (littleEndian n word).length = n := by
  induction n generalizing word with
  | zero => rfl
  | succ n ih => simp [littleEndian, ih]

/- The bytes of a number give back its lowest bits. -/
theorem ofLittleEndian_littleEndian
    (n word : Nat) :
    ofLittleEndian (littleEndian n word) = word % 256 ^ n := by
  induction n generalizing word with
  | zero => simp [littleEndian, ofLittleEndian, Nat.mod_one]
  | succ n ih =>
      have hByte : ((word % 256).toUInt8).toNat = word % 256 := by
        simp [Nat.toUInt8]
      rw [littleEndian, ofLittleEndian, hByte, ih, Nat.pow_succ,
        Nat.mul_comm _ 256, Nat.mod_mul]

namespace WordLayout

variable {name : FieldName} {offset : Nat}

------------------------------------------------------------
-- Sound Layouts
------------------------------------------------------------

/-
  Slots that are not empty, the first of them wide enough for
  the selector of a vector operation, below the flags of a word
  of at most sixteen bytes.
-/
structure Sound (w : WordLayout) : Prop where
  slot0_le : simdOpBits ≤ w.slot0
  slot1_pos : 0 < w.slot1
  slot2_pos : 0 < w.slot2
  slots_le : w.slot0 + w.slot1 + w.slot2 ≤ w.flagsOffset
  wordBits_eq : w.wordBits = w.flagsOffset + 8
  bytes_eq : w.wordBits = 8 * w.wordBytes
  wordBits_le : w.wordBits ≤ maxWordBits

/- Counts need at least one bit. -/
theorem bitsFor_pos (count : Nat) : 0 < bitsFor count := by
  unfold bitsFor
  split <;> omega

/- The layout of a machine is sound. -/
theorem sound_of_ofMachine
    {m : Machine}
    {w : WordLayout}
    (hLayout : ofMachine m = .ok w) :
    w.Sound := by
  unfold ofMachine at hLayout
  simp only at hLayout
  split at hLayout
  case isFalse => cases hLayout
  case isTrue hWide =>
    cases hLayout
    have hAccumulator := bitsFor_pos m.accumulatorDepth
    have hSize := bitsFor_pos (max m.localDepth m.accumulatorDepth)
    constructor <;>
      simp only [Count.roundUp, Count.ceilDiv, flagsBits, opcodeBits,
        simdOpBits, flagsOffset, wordBytes, Machine.accumulatorBits,
        Machine.sizeBits] at hWide ⊢ <;>
      omega

------------------------------------------------------------
-- Slots
------------------------------------------------------------

/- The lowest bit of the slot of an operand. -/
def slotOffset
    (w : WordLayout) : FieldName → Nat
| .localAddress => 0
| .simdOp => 0
| .accumulatorAddress => w.slot0
| .address => w.slot0
| .readAddress => w.slot0
| .size => w.slot0 + w.slot1
| .writeAddress => w.slot0 + w.slot1
| .reserved => 0
| .flags => w.flagsOffset
| .opcode => w.opcodeOffset

/- The width of the slot of an operand. -/
def slotWidth
    (w : WordLayout) : FieldName → Nat
| .localAddress => w.slot0
| .simdOp => w.slot0
| .accumulatorAddress => w.slot1
| .address => w.slot1
| .readAddress => w.slot1
| .size => w.slot2
| .writeAddress => w.slot2
| .reserved => 0
| .flags => flagsBits
| .opcode => opcodeBits

/- The field of an operand. -/
def slot
    (w : WordLayout)
    (name : FieldName) : Field :=
  { name, offset := w.slotOffset name, width := w.slotWidth name }

------------------------------------------------------------
-- Named Fields
------------------------------------------------------------

/- Named widths one after another, from a given bit on. -/
def sideBySide : Nat → List (FieldName × Nat) → List Field
| _, [] => []
| offset, (name, width) :: rest =>
    { name, offset, width } :: sideBySide (offset + width) rest

/-
  Leaving out empty parts and joining reserved ones does not
  move the first part of any other name.
-/
theorem find?_place
    (hName : name ≠ .reserved)
    (offset : Nat)
    (parts : List (FieldName × Nat)) :
    (place offset parts).find? (fun f => f.name = name) =
      (sideBySide offset parts).find?
        (fun f => f.name = name ∧ 0 < f.width) := by
  induction parts generalizing offset with
  | nil => rfl
  | cons part rest ih =>
      rcases part with ⟨first, width⟩
      have hRest := ih (offset + width)
      simp only [place, sideBySide]
      by_cases hWidth : width = 0
      · simp [hWidth] at hRest ⊢
        simpa [hWidth] using hRest
      · have hPos : 0 < width := Nat.pos_of_ne_zero hWidth
        by_cases hFirst : first = name
        · -- The part itself is found, so it must not be reserved.
          have hKept : first ≠ .reserved := hFirst ▸ hName
          cases hLater : place (offset + width) rest with
          | nil => simp [hWidth, hFirst, hPos]
          | cons f fs => simp [hWidth, hFirst, hPos, hName]
        · cases hLater : place (offset + width) rest with
          | nil =>
              rw [hLater] at hRest
              simpa [hWidth, hFirst] using hRest
          | cons f fs =>
              rw [hLater] at hRest
              by_cases hJoin : first = .reserved ∧ f.IsReserved
              · have hSkip : f.name ≠ name := by
                  rw [hJoin.2]
                  exact hName.symm
                simp only [List.find?_cons, hSkip,
                  decide_false] at hRest
                simpa [hWidth, hJoin, hName.symm] using hRest
              · simpa [hWidth, hFirst, hJoin] using hRest

/- The field of a name among the six parts of a word. -/
theorem field?_eq_find?
    (w : WordLayout)
    (op : Opcode)
    (hName : name ≠ .reserved) :
    w.field? op name =
      (sideBySide 0
        [ ((slotNames op).1, w.slot0),
          ((slotNames op).2.1, w.slot1),
          ((slotNames op).2.2, w.slot2),
          (.reserved, w.flagsOffset - (w.slot0 + w.slot1 + w.slot2)),
          (.flags, flagsBits), (.opcode, opcodeBits) ]).find?
        (fun f => f.name = name ∧ 0 < f.width) :=
  find?_place hName 0 _

/- Every operand of an instruction has the field of its slot. -/
theorem field?_operand
    {w : WordLayout}
    (hSound : w.Sound)
    {i : Instruction}
    {operand : FieldName × Nat}
    (hMem : operand ∈ i.operands) :
    w.field? i.opcode operand.1 = some (w.slot operand.1) := by
  have h0 : 0 < w.slot0 :=
    Nat.lt_of_lt_of_le (by decide) hSound.slot0_le
  have h1 := hSound.slot1_pos
  have h2 := hSound.slot2_pos
  cases i <;>
    simp only [Instruction.operands, List.mem_cons,
      List.not_mem_nil, or_false] at hMem <;>
    rcases hMem with rfl | rfl | rfl <;>
    rw [field?_eq_find? _ _ (by simp)] <;>
    simp [sideBySide, slotNames, Instruction.opcode, slot,
      slotOffset, slotWidth, h0, h1, h2]

------------------------------------------------------------
-- Reserved Fields
------------------------------------------------------------

/- Every bit of a field of a word is clear. -/
def Clear
    (word : Nat)
    (f : Field) : Prop :=
  word / 2 ^ f.offset % 2 ^ f.width = 0

/- Two neighbouring clear fields are one clear field. -/
theorem clear_join
    {word width : Nat}
    {f : Field}
    (hFirst : word / 2 ^ offset % 2 ^ width = 0)
    (hSecond : Clear word f)
    (hNext : f.offset = offset + width) :
    Clear word { name, offset, width := width + f.width } := by
  unfold Clear at hSecond ⊢
  simp only
  rw [hNext, Nat.pow_add, ← Nat.div_div_eq_div_mul] at hSecond
  rw [Nat.pow_add, Nat.mod_mul, hFirst, hSecond, Nat.mul_zero]

/- The first field starts where the placement starts. -/
theorem head_offset_place
    {parts : List (FieldName × Nat)}
    {f : Field}
    {fs : List Field}
    (hPlace : place offset parts = f :: fs) :
    f.offset = offset := by
  induction parts generalizing offset with
  | nil => cases hPlace
  | cons part rest ih =>
      rcases part with ⟨name, width⟩
      simp only [place] at hPlace
      split at hPlace
      case isTrue hWidth =>
        subst hWidth
        exact ih hPlace
      case isFalse hWidth =>
        split at hPlace
        · split at hPlace <;> cases hPlace <;> rfl
        · cases hPlace
          rfl

/- If all reserved parts are clear, so are the reserved fields. -/
theorem clear_place
    {word : Nat}
    {parts : List (FieldName × Nat)}
    (hParts :
      ∀ f ∈ sideBySide offset parts, f.IsReserved → Clear word f) :
    ∀ f ∈ place offset parts, f.IsReserved → Clear word f := by
  induction parts generalizing offset with
  | nil => simp [place]
  | cons part rest ih =>
      rcases part with ⟨name, width⟩
      have hLater :
          ∀ f ∈ place (offset + width) rest,
            f.IsReserved → Clear word f := by
        apply ih
        intro f hMem
        exact hParts f (List.mem_cons_of_mem _ hMem)
      have hFirst := hParts { name, offset, width } List.mem_cons_self
      intro f hMem hReserved
      simp only [place] at hMem
      split at hMem
      case isTrue => exact hLater f hMem hReserved
      case isFalse =>
        split at hMem
        case h_1 g gs hPlace =>
          rw [hPlace] at hLater
          split at hMem
          case isTrue hJoin =>
            rcases List.mem_cons.mp hMem with rfl | hRest
            · exact clear_join (hFirst hJoin.1)
                (hLater g List.mem_cons_self hJoin.2)
                (head_offset_place hPlace)
            · exact hLater f (List.mem_cons_of_mem _ hRest) hReserved
          case isFalse =>
            rcases List.mem_cons.mp hMem with rfl | hRest
            · exact hFirst hReserved
            · exact hLater f hRest hReserved
        case h_2 =>
          rcases List.mem_singleton.mp hMem with rfl
          exact hFirst hReserved

------------------------------------------------------------
-- Words
------------------------------------------------------------

/- What a word holds: three slots, the flags and the opcode. -/
structure Contents where
  slot0 : Nat
  slot1 : Nat
  slot2 : Nat
  flags : Nat
  opcode : Nat
deriving DecidableEq, Repr

/- The word with given contents. -/
def assemble
    (w : WordLayout)
    (c : Contents) : Nat :=
  c.slot0 + c.slot1 * 2 ^ w.slot0 + c.slot2 * 2 ^ (w.slot0 + w.slot1) +
    c.flags * 2 ^ w.flagsOffset + c.opcode * 2 ^ w.opcodeOffset

/- Contents that fit the slots of a layout. -/
structure Contents.Fit
    (w : WordLayout)
    (c : Contents) : Prop where
  slot0_lt : c.slot0 < 2 ^ w.slot0
  slot1_lt : c.slot1 < 2 ^ w.slot1
  slot2_lt : c.slot2 < 2 ^ w.slot2
  flags_lt : c.flags < 2 ^ flagsBits
  opcode_lt : c.opcode < 2 ^ opcodeBits

section Digits

variable {w : WordLayout} {c : Contents}

/- The two lower slots stay below the third one. -/
theorem Contents.Fit.slots01_lt
    (hFit : c.Fit w) :
    c.slot0 + c.slot1 * 2 ^ w.slot0 < 2 ^ (w.slot0 + w.slot1) :=
  add_mul_two_pow_lt hFit.slot0_lt hFit.slot1_lt

/- The slots stay below the padding. -/
theorem Contents.Fit.slots_lt
    (hFit : c.Fit w) :
    c.slot0 + c.slot1 * 2 ^ w.slot0 +
        c.slot2 * 2 ^ (w.slot0 + w.slot1) <
      2 ^ (w.slot0 + w.slot1 + w.slot2) :=
  add_mul_two_pow_lt hFit.slots01_lt hFit.slot2_lt

section

variable (hSound : w.Sound)
include hSound

/- A word is its low part and what stands above the slots. -/
theorem assemble_eq
    (offset : Nat)
    (hOffset : offset ≤ w.slot0 + w.slot1 + w.slot2) :
    ∃ high,
      w.assemble c =
        c.slot0 + c.slot1 * 2 ^ w.slot0 +
          c.slot2 * 2 ^ (w.slot0 + w.slot1) + high * 2 ^ offset ∧
      high =
        (c.flags + c.opcode * 2 ^ flagsBits) *
          2 ^ (w.flagsOffset - offset) := by
  have hLe := hSound.slots_le
  have hPow :
      2 ^ w.flagsOffset = 2 ^ (w.flagsOffset - offset) * 2 ^ offset := by
    rw [← Nat.pow_add]
    congr 1
    omega
  refine ⟨_, ?_, rfl⟩
  rw [assemble, opcodeOffset, Nat.pow_add 2 w.flagsOffset, hPow]
  ring

section

variable (hFit : c.Fit w)
include hFit

/- The first slot of a word. -/
theorem assemble_slot0 :
    w.assemble c / 2 ^ 0 % 2 ^ w.slot0 = c.slot0 := by
  rcases assemble_eq (c := c) hSound w.slot0 (by omega) with
    ⟨high, hWord, -⟩
  have hDigit :=
    div_mod_two_pow (c.slot1 + c.slot2 * 2 ^ w.slot1 + high)
      (Nat.two_pow_pos 0) hFit.slot0_lt
  rw [hWord]
  convert hDigit using 3
  rw [Nat.zero_add w.slot0, Nat.pow_add]
  ring

/- The second slot of a word. -/
theorem assemble_slot1 :
    w.assemble c / 2 ^ w.slot0 % 2 ^ w.slot1 = c.slot1 := by
  rcases assemble_eq (c := c) hSound (w.slot0 + w.slot1) (by omega) with
    ⟨high, hWord, -⟩
  have hDigit :=
    div_mod_two_pow (c.slot2 + high) hFit.slot0_lt hFit.slot1_lt
  rw [hWord]
  convert hDigit using 3
  ring

/- The third slot of a word. -/
theorem assemble_slot2 :
    w.assemble c / 2 ^ (w.slot0 + w.slot1) % 2 ^ w.slot2 = c.slot2 := by
  rcases assemble_eq (c := c) hSound
      (w.slot0 + w.slot1 + w.slot2) (le_refl _) with
    ⟨high, hWord, -⟩
  rw [hWord]
  exact div_mod_two_pow high hFit.slots01_lt hFit.slot2_lt

/- The padding of a word is clear. -/
theorem assemble_padding :
    w.assemble c / 2 ^ (w.slot0 + w.slot1 + w.slot2) %
      2 ^ (w.flagsOffset - (w.slot0 + w.slot1 + w.slot2)) = 0 := by
  rcases assemble_eq (c := c) hSound
      (w.slot0 + w.slot1 + w.slot2) (le_refl _) with
    ⟨high, hWord, hHigh⟩
  rw [hWord, Nat.add_mul_div_right _ _ (Nat.two_pow_pos _),
    Nat.div_eq_of_lt hFit.slots_lt, Nat.zero_add, hHigh,
    Nat.mul_mod_left]

/- All below the flags is small. -/
theorem Contents.Fit.payload_lt :
    c.slot0 + c.slot1 * 2 ^ w.slot0 +
        c.slot2 * 2 ^ (w.slot0 + w.slot1) <
      2 ^ w.flagsOffset :=
  Nat.lt_of_lt_of_le hFit.slots_lt
    (Nat.pow_le_pow_right (by decide) hSound.slots_le)

/- The flags of a word. -/
theorem assemble_flags :
    w.assemble c / 2 ^ w.flagsOffset % 16 = c.flags :=
  div_mod_two_pow _ (hFit.payload_lt hSound) hFit.flags_lt

/- The opcode of a word. -/
theorem assemble_opcode :
    w.assemble c / 2 ^ w.opcodeOffset % 16 = c.opcode := by
  have hDigit :=
    div_mod_two_pow 0
      (add_mul_two_pow_lt (hFit.payload_lt hSound) hFit.flags_lt)
      hFit.opcode_lt
  rw [Nat.zero_mul, Nat.add_zero] at hDigit
  exact hDigit

/- A word fits its bytes. -/
theorem assemble_lt :
    w.assemble c < 256 ^ w.wordBytes := by
  have hBytes : 256 ^ w.wordBytes = 2 ^ (w.flagsOffset + 4 + 4) := by
    rw [show (256 : Nat) = 2 ^ 8 from rfl, ← Nat.pow_mul]
    congr 1
    have := hSound.bytes_eq
    have := hSound.wordBits_eq
    omega
  rw [hBytes]
  exact add_mul_two_pow_lt
    (add_mul_two_pow_lt (hFit.payload_lt hSound) hFit.flags_lt)
    hFit.opcode_lt

end

end

end Digits

end WordLayout

end Systolic
