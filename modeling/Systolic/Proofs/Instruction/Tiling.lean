import Mathlib.Order.Bounds.Basic
import Systolic.Proofs.Instruction.Reach

/-
  This file proves that the fields of every kind of instruction
  tile its word. Placing named parts one after another leaves no
  gap and no empty field, joins neighbouring reserved parts, and
  keeps the names of all others. The layout of a machine places
  an operand at the same bits in every kind that has it, and
  those are enough for whatever the memories of the machine can
  ask of it.

  Key definitions include:
    * `Machine.slotBits`
    * `Machine.Asks`
    * `WordLayout.Partitions`
    * `WordLayout.Carries`

  Key theorems include:
    * `WordLayout.consecutive_place`
    * `WordLayout.isChain_place`
    * `WordLayout.ofMachine_tiles`
-/

namespace Systolic

namespace WordLayout

------------------------------------------------------------
-- Placed Parts
------------------------------------------------------------

/- The bits of named parts. -/
def totalBits (parts : List (FieldName × Nat)) : Nat :=
  (parts.map (·.2)).sum

/- Placed parts leave no gap, and none of their fields is empty. -/
theorem consecutive_place
    (offset : Nat)
    (parts : List (FieldName × Nat)) :
    Consecutive offset (place offset parts)
      (offset + totalBits parts) := by
  induction parts generalizing offset with
  | nil => rfl
  | cons part rest ih =>
      rcases part with ⟨name, width⟩
      have hRest := ih (offset + width)
      have hTotal :
          offset + width + totalBits rest =
            offset + totalBits ((name, width) :: rest) := by
        simp only [totalBits, List.map_cons, List.sum_cons]
        omega
      rw [hTotal] at hRest
      simp only [place]
      split
      case isTrue hEmpty =>
        rw [hEmpty, Nat.add_zero] at hRest ⊢
        exact hRest
      case isFalse hWidth =>
        have hPos : 0 < width := Nat.pos_of_ne_zero hWidth
        cases hLater : place (offset + width) rest with
        | nil =>
            rw [hLater] at hRest
            exact ⟨rfl, hPos, hRest⟩
        | cons f fs =>
            rw [hLater] at hRest
            rcases hRest with ⟨hStart, hWide, hNext⟩
            simp only
            split
            case isTrue =>
              -- The joined field ends where the field it takes in ended.
              have hStop :
                  Field.stop { name, offset, width := width + f.width } =
                    f.stop := by
                simp only [Field.stop, hStart]
                omega
              refine ⟨rfl, Nat.add_pos_left hPos _, ?_⟩
              rw [hStop]
              exact hNext
            case isFalse => exact ⟨rfl, hPos, hStart, hWide, hNext⟩

/- Of two neighbouring fields at most one is reserved. -/
def Separated (fs : List Field) : Prop :=
  fs.IsChain (fun f g => ¬ (f.IsReserved ∧ g.IsReserved))

theorem isChain_place
    (offset : Nat)
    (parts : List (FieldName × Nat)) :
    Separated (place offset parts) := by
  unfold Separated
  induction parts generalizing offset with
  | nil => exact .nil
  | cons part rest ih =>
      rcases part with ⟨name, width⟩
      have hRest := ih (offset + width)
      simp only [place]
      split
      case isTrue => exact hRest
      case isFalse =>
        cases hLater : place (offset + width) rest with
        | nil => exact .singleton _
        | cons f fs =>
            rw [hLater] at hRest
            simp only
            split
            case isTrue hJoin =>
              -- What follows the joined field was not reserved before.
              cases fs with
              | nil => exact .singleton _
              | cons g gs =>
                  rw [List.isChain_cons_cons] at hRest ⊢
                  refine ⟨?_, hRest.2⟩
                  rintro ⟨-, hReserved⟩
                  exact hRest.1 ⟨hJoin.2, hReserved⟩
            case isFalse hApart =>
              rw [List.isChain_cons_cons]
              exact ⟨hApart, hRest⟩

/- The names of fields, but for the reserved ones. -/
def names (fs : List Field) : List FieldName :=
  (fs.map (·.name)).filter (fun name => name ≠ .reserved)

/- Placed parts keep their names. -/
theorem names_place
    (offset : Nat)
    (parts : List (FieldName × Nat)) :
    (names (place offset parts)).Sublist
      ((parts.map (·.1)).filter (fun name => name ≠ .reserved)) := by
  unfold names
  induction parts generalizing offset with
  | nil => exact List.Sublist.slnil
  | cons part rest ih =>
      rcases part with ⟨name, width⟩
      have hRest := ih (offset + width)
      rw [List.map_cons, List.filter_cons]
      simp only [place]
      split
      case isTrue =>
        split
        case isTrue => exact hRest.cons _
        case isFalse => exact hRest
      case isFalse =>
        cases hLater : place (offset + width) rest with
        | nil =>
            by_cases hName : name = .reserved <;> simp [hName]
        | cons f fs =>
            rw [hLater] at hRest
            simp only
            by_cases hName : name = .reserved
            · by_cases hReserved : f.name = .reserved
              · simpa [hName, Field.IsReserved, hReserved] using hRest
              · simpa [hName, Field.IsReserved, hReserved] using hRest
            · simpa [hName] using hRest

------------------------------------------------------------
-- The Word of a Machine
------------------------------------------------------------

variable {m : Machine}
variable {w : WordLayout}

/- The six parts of the word of a kind. -/
def parts
    (w : WordLayout)
    (op : Opcode) : List (FieldName × Nat) :=
  [ ((slotNames op).1, w.slot0), ((slotNames op).2.1, w.slot1),
    ((slotNames op).2.2, w.slot2),
    (.reserved, w.flagsOffset - (w.slot0 + w.slot1 + w.slot2)),
    (.flags, flagsBits), (.opcode, opcodeBits) ]

theorem fields_eq
    (w : WordLayout)
    (op : Opcode) :
    w.fields op = place 0 (w.parts op) :=
  rfl

theorem consecutive_fields
    (hSound : w.Sound)
    (op : Opcode) :
    Consecutive 0 (w.fields op) w.wordBits := by
  have hSlots := hSound.slots_le
  have hTotal : 0 + totalBits (w.parts op) = w.wordBits := by
    simp only [totalBits, parts, List.map_cons, List.map_nil,
      List.sum_cons, List.sum_nil, flagsBits, opcodeBits,
      hSound.wordBits_eq]
    omega
  rw [fields_eq, ← hTotal]
  exact consecutive_place 0 _

/- No kind has two slots of one name. -/
theorem nodup_names_fields
    (w : WordLayout)
    (op : Opcode) :
    (names (w.fields op)).Nodup := by
  rw [fields_eq]
  refine (names_place _ _).nodup ?_
  simp only [parts, List.map_cons, List.map_nil]
  cases op <;> decide

/- A name stands for the same bits in every kind that has it. -/
theorem eq_slot_of_field?
    (hSound : w.Sound)
    {op : Opcode}
    {name : FieldName}
    {f : Field}
    (hName : name ≠ .reserved)
    (hField : w.field? op name = some f) :
    f = w.slot name := by
  have hSlots := hSound.slots_le
  rw [field?_eq_find? _ _ hName] at hField
  have hFound := List.mem_of_find?_eq_some hField
  have hSpec := List.find?_some hField
  simp only [decide_eq_true_eq] at hSpec
  rcases hSpec with ⟨rfl, -⟩
  cases op <;>
    simp only [sideBySide, slotNames, List.mem_cons, List.not_mem_nil,
      or_false] at hFound <;>
    rcases hFound with rfl | rfl | rfl | rfl | rfl | rfl <;>
    simp_all [slot, slotOffset, slotWidth, opcodeOffset]

/- The flags and the opcode are the same bits in every kind. -/
theorem field?_control
    (hSound : w.Sound)
    (op : Opcode) :
    w.field? op .flags =
        some { name := .flags, offset := w.wordBits - 8, width := 4 } ∧
      w.field? op .opcode =
        some { name := .opcode, offset := w.wordBits - 4, width := 4 } := by
  have hSlots := hSound.slots_le
  have hWord := hSound.wordBits_eq
  have hFlags :
      w.slot0 + w.slot1 + w.slot2 +
        (w.flagsOffset - (w.slot0 + w.slot1 + w.slot2)) =
          w.wordBits - 8 := by
    omega
  have hOpcode : w.wordBits - 8 + 4 = w.wordBits - 4 := by omega
  rw [field?_eq_find? _ _ (by decide), field?_eq_find? _ _ (by decide)]
  constructor <;> cases op <;>
    simp [sideBySide, slotNames, flagsBits, opcodeBits, hFlags, ← hOpcode]

/-
  The fields of every kind fill the word from its lowest bit, no
  two neighbours are reserved, and a name stands for the bits of
  its slot, which are the same in all kinds. The flags and the
  opcode are the highest bits.
-/
structure Partitions (w : WordLayout) : Prop where
  tiled : w.Tiled
  merged : ∀ op, Separated (w.fields op)
  once : ∀ op, (names (w.fields op)).Nodup
  operand :
    ∀ i : Instruction, ∀ operand ∈ i.operands,
      ∃ f, w.field? i.opcode operand.1 = some f
  slots :
    ∀ op name f, name ≠ .reserved →
      w.field? op name = some f → f = w.slot name
  shared :
    ∀ op op' name f f', name ≠ .reserved →
      w.field? op name = some f →
        w.field? op' name = some f' → f = f'
  flags :
    ∀ op, w.field? op .flags =
      some { name := .flags, offset := w.wordBits - 8, width := 4 }
  opcode :
    ∀ op, w.field? op .opcode =
      some { name := .opcode, offset := w.wordBits - 4, width := 4 }

theorem Sound.partitions
    (hSound : w.Sound) :
    w.Partitions := by
  constructor
  case tiled =>
    intro op _
    exact consecutive_fields hSound op
  case merged =>
    intro op
    exact isChain_place _ _
  case once => exact nodup_names_fields w
  case operand =>
    intro i operand hMem
    exact ⟨_, field?_operand hSound hMem⟩
  case slots =>
    intro op name f hName hField
    exact eq_slot_of_field? hSound hName hField
  case shared =>
    intro op op' name f f' hName hField hField'
    rw [eq_slot_of_field? hSound hName hField,
      eq_slot_of_field? hSound hName hField']
  case flags =>
    intro op
    exact (field?_control hSound op).1
  case opcode =>
    intro op
    exact (field?_control hSound op).2

end WordLayout

------------------------------------------------------------
-- Operands of a Machine
------------------------------------------------------------

/- The bits of the three operand slots of a machine. -/
def Machine.slotBits (m : Machine) : Nat :=
  max m.localBits simdOpBits + max m.accumulatorBits m.dramBits +
    max m.sizeBits m.accumulatorBits

/-
  The operands that the memories of a machine can ask for:
  addresses inside them, numbers of vectors that one of those on
  the chip can hold, and the selectors of vector operations.
-/
def Machine.Asks
    (m : Machine) : FieldName × Nat → Prop
| (.localAddress, value) => value < m.localDepth
| (.accumulatorAddress, value) => value < m.accumulatorDepth
| (.readAddress, value) => value < m.accumulatorDepth
| (.writeAddress, value) => value < m.accumulatorDepth
| (.address, value) =>
    value < m.accumulatorDepth ∨ value < m.dram0Depth ∨
      value < m.dram1Depth
| (.size, value) =>
    1 ≤ value ∧ value ≤ max m.localDepth m.accumulatorDepth
| (.simdOp, value) => ∃ op : SimdOp, op.bits = value
| _ => False

namespace WordLayout

variable {m : Machine}
variable {w : WordLayout}

/-
  Every field that a machine can ask for an operand takes it, and
  an instruction of such operands has a word.
-/
structure Carries
    (w : WordLayout)
    (m : Machine) : Prop where
  field :
    ∀ op name f value, w.field? op name = some f →
      value < Count.limit → m.Asks (name, value) →
        ∃ bits, f.raw value = .ok bits
  instruction :
    ∀ i : Instruction, i.Counted →
      (∀ operand ∈ i.operands, m.Asks operand) →
        ∃ bytes, w.encode i = .ok bytes

/- A write address shares the slot of a size, which has its bits too. -/
theorem accumulatorDepth_le_slot2
    (hLayout : ofMachine m = .ok w) :
    m.accumulatorDepth ≤ 2 ^ w.slot2 :=
  Nat.le_trans (Nat.le_max_right _ _) (wide_of_ofMachine hLayout).size

/- The slots of a machine can hold what it asks for. -/
theorem inRange_of_asks
    (hLayout : ofMachine m = .ok w)
    {operand : FieldName × Nat}
    (hAsks : m.Asks operand) :
    w.InRange operand := by
  have hWide := wide_of_ofMachine hLayout
  rcases operand with ⟨name, value⟩
  cases name with
  | localAddress =>
      have hNear := hWide.near
      simp only [Machine.Asks] at hAsks
      simp only [InRange, slotWidth, reduceCtorEq, if_false]
      omega
  | accumulatorAddress =>
      have hFar := hWide.far .accumulator (by decide)
      simp only [Machine.Asks] at hAsks
      simp only [InRange, slotWidth, reduceCtorEq, if_false]
      simp only [Machine.depth] at hFar
      omega
  | address =>
      have hAccumulator := hWide.far .accumulator (by decide)
      have hBank0 := hWide.far .dram0 (by decide)
      have hBank1 := hWide.far .dram1 (by decide)
      simp only [Machine.Asks] at hAsks
      simp only [InRange, slotWidth, reduceCtorEq, if_false]
      simp only [Machine.depth] at hAccumulator hBank0 hBank1
      omega
  | size =>
      have hSize := hWide.size
      simp only [Machine.Asks] at hAsks
      simp only [InRange, slotWidth, if_true]
      exact ⟨hAsks.1, Nat.le_trans hAsks.2 hSize⟩
  | simdOp =>
      have hSelector : 2 ^ simdOpBits ≤ 2 ^ w.slot0 :=
        Nat.pow_le_pow_right (by decide)
          (sound_of_ofMachine hLayout).slot0_le
      rcases hAsks with ⟨op, rfl⟩
      have hBits : op.bits < 2 ^ simdOpBits := by
        cases op <;> decide
      simp only [InRange, slotWidth, reduceCtorEq, if_false]
      omega
  | readAddress =>
      have hFar := hWide.far .accumulator (by decide)
      simp only [Machine.Asks] at hAsks
      simp only [InRange, slotWidth, reduceCtorEq, if_false]
      simp only [Machine.depth] at hFar
      omega
  | writeAddress =>
      have hDepth := accumulatorDepth_le_slot2 hLayout
      simp only [Machine.Asks] at hAsks
      simp only [InRange, slotWidth, reduceCtorEq, if_false]
      omega
  | reserved => exact hAsks.elim
  | flags => exact hAsks.elim
  | opcode => exact hAsks.elim

theorem carries_of_ofMachine
    (hLayout : ofMachine m = .ok w) :
    w.Carries m := by
  have hSound := sound_of_ofMachine hLayout
  constructor
  case field =>
    intro op name f value hField hCount hAsks
    have hName : name ≠ .reserved := by
      rintro rfl
      exact hAsks
    rw [eq_slot_of_field? hSound hName hField, raw_slot w name hCount,
      if_pos (inRange_of_asks hLayout hAsks)]
    exact ⟨_, rfl⟩
  case instruction =>
    intro i hCounted hAsks
    exact ⟨_, (encode_ok_iff hSound hCounted).mpr
      ⟨fun operand hMem => inRange_of_asks hLayout (hAsks operand hMem),
        rfl⟩⟩

------------------------------------------------------------
-- The Width of a Word
------------------------------------------------------------

/- The widths of words of whole bytes that hold some operands. -/
def Widths (operandBits : Nat) : Set Nat :=
  {bits | 8 ∣ bits ∧ operandBits + 8 ≤ bits}

theorem isLeast_widths (operandBits : Nat) :
    IsLeast (Widths operandBits)
      (Count.roundUp (operandBits + flagsBits + opcodeBits) 8) := by
  simp only [Count.roundUp, Count.ceilDiv, flagsBits, opcodeBits]
  constructor
  · refine ⟨Nat.dvd_mul_left _ _, ?_⟩
    omega
  · rintro bits ⟨⟨bytes, rfl⟩, hHolds⟩
    omega

/- The layout of a machine has the narrowest word, if that is allowed. -/
theorem ofMachine_eq
    {bits : Nat}
    (hLeast : IsLeast (Widths m.slotBits) bits) :
    ofMachine m =
      if bits ≤ maxWordBits then
        .ok
          { slot0 := max m.localBits simdOpBits
            slot1 := max m.accumulatorBits m.dramBits
            slot2 := max m.sizeBits m.accumulatorBits
            wordBits := bits }
      else .error (.wideWord bits) := by
  rw [hLeast.unique (isLeast_widths _)]
  rfl

/-
  A machine has no layout exactly if its narrowest word has more
  than sixteen bytes. Its layout has that word, which the fields
  of every kind tile, and has room for every operand that its
  memories can ask for.
-/
theorem ofMachine_tiles (m : Machine) :
    (∀ fault, ofMachine m = .error fault ↔
      ∃ bits, IsLeast (Widths m.slotBits) bits ∧ 128 < bits ∧
        fault = .wideWord bits) ∧
    ∀ w, ofMachine m = .ok w →
      w.slot0 + w.slot1 + w.slot2 = m.slotBits ∧
        IsLeast (Widths m.slotBits) w.wordBits ∧ w.wordBits ≤ 128 ∧
        w.Partitions ∧ w.Carries m := by
  have hLeast := isLeast_widths m.slotBits
  constructor
  · intro fault
    rw [ofMachine_eq hLeast]
    constructor
    · intro hFault
      split at hFault
      case isTrue => cases hFault
      case isFalse hWide =>
        cases hFault
        exact ⟨_, hLeast, Nat.lt_of_not_le hWide, rfl⟩
    · rintro ⟨bits, hBits, hWide, rfl⟩
      have hTooWide : ¬ bits ≤ maxWordBits := Nat.not_le_of_lt hWide
      rw [hLeast.unique hBits, if_neg hTooWide]
  · intro w hLayout
    have hWord := hLayout
    rw [ofMachine_eq hLeast] at hWord
    split at hWord
    case isFalse => cases hWord
    case isTrue hNarrow =>
      cases hWord
      exact ⟨rfl, hLeast, hNarrow, (sound_of_ofMachine hLayout).partitions,
        carries_of_ofMachine hLayout⟩

/- The standard machine has a word of 56 bits, the narrowest for 42. -/
theorem ofMachine_tiles_standard :
    IsLeast (Widths 42) 56 ∧
      WordLayout.Partitions
        { slot0 := 11, slot1 := 20, slot2 := 11, wordBits := 56 } ∧
      WordLayout.Carries
        { slot0 := 11, slot1 := 20, slot2 := 11, wordBits := 56 }
        Machine.standard := by
  have hLayout :
      ofMachine Machine.standard =
        .ok { slot0 := 11, slot1 := 20, slot2 := 11, wordBits := 56 } := by
    decide
  rcases (ofMachine_tiles Machine.standard).2 _ hLayout with
    ⟨hSlots, hLeast, -, hPartitions, hCarries⟩
  rw [← hSlots] at hLeast
  exact ⟨hLeast, hPartitions, hCarries⟩

end WordLayout

end Systolic
