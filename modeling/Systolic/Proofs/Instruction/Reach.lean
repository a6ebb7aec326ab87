import Systolic.Proofs.Instruction.RoundTrip
import Systolic.Proofs.Machine.Contents
import Systolic.Machine.Validity

/-
  This file proves that the slots of a word are wide enough for
  its machine: an instruction that stays inside the memories of
  the machine has a word.

  Key definitions include:
    * `Machine.depth`
    * `Machine.Accepted`
    * `Direction.far`
    * `Instruction.spans`
    * `Instruction.Within`

  Key theorems include:
    * `WordLayout.wide_of_ofMachine`
    * `WordLayout.encode_of_within`
-/

namespace Systolic

------------------------------------------------------------
-- Bits and Depths
------------------------------------------------------------

/- The depth of a memory. -/
def Machine.depth
    (m : Machine) : Store → Nat
| .scratchpad => m.localDepth
| .accumulator => m.accumulatorDepth
| .dram0 => m.dram0Depth
| .dram1 => m.dram1Depth

/- What is known of the parameters of a machine that is accepted. -/
structure Machine.Accepted
    (m : Machine)
    (w : WordLayout) : Prop where
  arraySize_pos : 0 < m.arraySize
  depth_pos : ∀ store, 0 < m.depth store
  busWidth_pos : 0 < m.busWidth
  layout : WordLayout.ofMachine m = .ok w

theorem Machine.accepted_of_check
    {m : Machine}
    {w : WordLayout}
    (hCheck : m.check = .ok w) :
    m.Accepted w := by
  unfold check at hCheck
  split at hCheck
  case isTrue => cases hCheck
  case isFalse hArray =>
    split at hCheck
    case h_1 => cases hCheck
    case h_2 hDepths =>
      split at hCheck
      case isTrue => cases hCheck
      case isFalse hBus =>
        refine ⟨by omega, ?_, by omega, hCheck⟩
        intro store
        rw [List.find?_eq_none] at hDepths
        have hMem : (store, m.depth store) ∈ m.depths := by
          cases store <;> simp [depths, depth]
        have hNonzero := hDepths (store, m.depth store) hMem
        rw [decide_eq_true_iff] at hNonzero
        exact Nat.pos_of_ne_zero hNonzero

/- Enough bits tell a number of values apart. -/
theorem le_two_pow_bitsFor (count : Nat) :
    count ≤ 2 ^ bitsFor count := by
  unfold bitsFor
  split
  case isTrue hSmall => omega
  case isFalse hLarge =>
    have hLog : count - 1 < 2 ^ (Nat.log2 (count - 1) + 1) :=
      Nat.lt_log2_self
    omega

theorem le_two_pow_of_bitsFor_le
    {count width : Nat}
    (hWidth : bitsFor count ≤ width) :
    count ≤ 2 ^ width :=
  Nat.le_trans (le_two_pow_bitsFor count)
    (Nat.pow_le_pow_right (by decide) hWidth)

theorem bitsFor_max
    (a b : Nat) :
    bitsFor (max a b) ≤ max (bitsFor a) (bitsFor b) := by
  rcases Nat.le_total a b with hLe | hLe
  · rw [Nat.max_eq_right hLe]
    exact Nat.le_max_right _ _
  · rw [Nat.max_eq_left hLe]
    exact Nat.le_max_left _ _

namespace WordLayout

/- Slots that can hold what is counted in the memories of a machine. -/
structure Wide
    (w : WordLayout)
    (m : Machine) : Prop where
  near : m.localDepth ≤ 2 ^ w.slot0
  far : ∀ store, store ≠ .scratchpad → m.depth store ≤ 2 ^ w.slot1
  size : max m.localDepth m.accumulatorDepth ≤ 2 ^ w.slot2
  size_le : 2 ^ w.slot2 < Count.limit

/-
  A size is counted in memories on the chip, each of which has
  an address slot beside it, so its slot fills at most half of
  all slots.
-/
theorem wide_of_ofMachine
    {m : Machine}
    {w : WordLayout}
    (hLayout : ofMachine m = .ok w) :
    w.Wide m := by
  have hSound := sound_of_ofMachine hLayout
  have hSizeBits :
      m.sizeBits ≤ max m.localBits m.accumulatorBits :=
    bitsFor_max _ _
  have hWordBits := hSound.wordBits_eq
  have hSlots := hSound.slots_le
  have hWordBits_le := hSound.wordBits_le
  unfold ofMachine at hLayout
  simp only at hLayout
  split at hLayout
  case isFalse => cases hLayout
  case isTrue =>
    cases hLayout
    simp only [maxWordBits] at hSlots hWordBits hWordBits_le
    constructor
    case near => exact le_two_pow_of_bitsFor_le (Nat.le_max_left _ _)
    case far =>
      intro store hStore
      have hDram :
          max m.dram0Depth m.dram1Depth ≤
            2 ^ max m.accumulatorBits m.dramBits :=
        le_two_pow_of_bitsFor_le (Nat.le_max_right _ _)
      cases store with
      | scratchpad => exact absurd rfl hStore
      | accumulator =>
          exact le_two_pow_of_bitsFor_le (Nat.le_max_left _ _)
      | dram0 => exact Nat.le_trans (Nat.le_max_left _ _) hDram
      | dram1 => exact Nat.le_trans (Nat.le_max_right _ _) hDram
    case size => exact le_two_pow_of_bitsFor_le (Nat.le_max_left _ _)
    case size_le =>
      have hHalf : max m.sizeBits m.accumulatorBits < 64 := by omega
      exact Nat.pow_lt_pow_right (by decide) hHalf

end WordLayout

/- Twice the depth of a memory on the chip is still a count. -/
theorem Machine.Accepted.half_le
    {m : Machine}
    {w : WordLayout}
    (hAccepted : m.Accepted w) :
    2 * max m.localDepth m.accumulatorDepth ≤ Count.limit := by
  have hWide := WordLayout.wide_of_ofMachine hAccepted.layout
  have hSlot : w.slot2 + 1 ≤ 64 :=
    (Nat.pow_lt_pow_iff_right (by decide : 1 < 2)).mp hWide.size_le
  calc
    2 * max m.localDepth m.accumulatorDepth ≤ 2 * 2 ^ w.slot2 :=
      Nat.mul_le_mul_left 2 hWide.size
    _ = 2 ^ (w.slot2 + 1) := (Nat.pow_succ' ..).symm
    _ ≤ Count.limit := Nat.pow_le_pow_right (by decide) hSlot

------------------------------------------------------------
-- Instructions
------------------------------------------------------------

/- The memory at the far end of a data move. -/
def Direction.far : Direction → Store
| dram0ToLocal => .dram0
| localToDram0 => .dram0
| dram1ToLocal => .dram1
| localToDram1 => .dram1
| accumulatorToLocal => .accumulator
| localToAccumulator => .accumulator
| addToAccumulator => .accumulator

/- The vectors that an instruction names. -/
def Instruction.spans : Instruction → List Span
| noOp => []
| matMul _ _ near acc size =>
    [ { store := .scratchpad, start := near, length := size },
      { store := .accumulator, start := acc, length := size } ]
| dataMove direction near far size =>
    [ { store := .scratchpad, start := near, length := size },
      { store := direction.far, start := far, length := size } ]
| loadWeight _ near size =>
    [{ store := .scratchpad, start := near, length := size }]
| simd _ _ _ _ read write =>
    [ { store := .accumulator, start := read, length := 1 },
      { store := .accumulator, start := write, length := 1 } ]

/-
  A span has vectors and lies inside its memory, at addresses
  that are counts.
-/
def Span.Within
    (m : Machine)
    (s : Span) : Prop :=
  0 < s.length ∧ s.start + s.length ≤ m.depth s.store ∧
    s.start < Count.limit

/- The vectors that an instruction names lie inside the memories. -/
def Instruction.Within
    (m : Machine)
    (i : Instruction) : Prop :=
  ∀ s ∈ i.spans, s.Within m

namespace WordLayout

variable {m : Machine} {w : WordLayout} {i : Instruction}

section

variable (hLayout : ofMachine m = .ok w) (hWithin : i.Within m)
include hLayout hWithin

/-
  The operands of an instruction that stays inside the memories
  are counts, and their slots can hold them.
-/
theorem operands_of_within :
    ∀ operand ∈ i.operands,
      operand.2 < Count.limit ∧ w.InRange operand := by
  have hSound := sound_of_ofMachine hLayout
  have hWide := wide_of_ofMachine hLayout
  have hNear := hWide.near
  have hSize := hWide.size
  have hLimit := hWide.size_le
  have hAcc := hWide.far .accumulator (by decide)
  have hLocal : m.depth .scratchpad = m.localDepth := rfl
  have hAccumulator : m.depth .accumulator = m.accumulatorDepth := rfl
  have hSelector : 2 ^ 4 ≤ 2 ^ w.slot0 :=
    Nat.pow_le_pow_right (by decide) hSound.slot0_le
  intro operand hMem
  unfold Instruction.Within at hWithin
  cases i with
  | noOp => cases hMem
  | matMul accumulate zeroes near acc size =>
      simp only [Instruction.spans, List.forall_mem_cons,
        Span.Within] at hWithin
      simp only [Instruction.operands, List.mem_cons, List.not_mem_nil,
        or_false] at hMem
      rcases hMem with rfl | rfl | rfl <;>
        simp only [InRange, slotWidth, reduceCtorEq, if_true, if_false] <;>
        omega
  | dataMove direction near far size =>
      simp only [Instruction.spans, List.forall_mem_cons,
        Span.Within] at hWithin
      have hFar := hWide.far direction.far
        (by cases direction <;> simp [Direction.far])
      simp only [Instruction.operands, List.mem_cons, List.not_mem_nil,
        or_false] at hMem
      rcases hMem with rfl | rfl | rfl <;>
        simp only [InRange, slotWidth, reduceCtorEq, if_true, if_false] <;>
        omega
  | loadWeight zeroes near size =>
      simp only [Instruction.spans, List.forall_mem_cons,
        Span.Within] at hWithin
      simp only [Instruction.operands, List.mem_cons, List.not_mem_nil,
        or_false] at hMem
      rcases hMem with rfl | rfl <;>
        simp only [InRange, slotWidth, reduceCtorEq, if_true, if_false] <;>
        omega
  | simd op read? write? extra read write =>
      have hBits : op.bits < 2 ^ 4 ∧ op.bits < Count.limit := by
        cases op <;> decide
      simp only [Instruction.spans, List.forall_mem_cons,
        Span.Within] at hWithin
      simp only [Instruction.operands, List.mem_cons, List.not_mem_nil,
        or_false] at hMem
      rcases hMem with rfl | rfl | rfl <;>
        simp only [InRange, slotWidth, reduceCtorEq, if_false] <;>
        omega

theorem counted_of_within :
    i.Counted :=
  fun operand hMem => (operands_of_within hLayout hWithin operand hMem).1

/- An instruction that stays inside the memories has a word. -/
theorem encode_of_within :
    ∃ bytes, w.encode i = .ok bytes := by
  have hOperands := operands_of_within hLayout hWithin
  exact ⟨_, (encode_ok_iff (sound_of_ofMachine hLayout)
    (counted_of_within hLayout hWithin)).mpr
      ⟨fun operand hMem => (hOperands operand hMem).2, rfl⟩⟩

end

end WordLayout

end Systolic
