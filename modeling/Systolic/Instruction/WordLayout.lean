import Systolic.Machine.Basic
import Systolic.Machine.Fault
import Systolic.Instruction.Basic

/-
  This file defines the layout of an instruction word. A word
  has three operand slots from its lowest bit up, then padding,
  four flag bits and the four bits of the opcode, and fills
  whole bytes. A slot is as wide as the widest operand that any
  kind of instruction puts into it. Slots that a kind does not
  use and the padding are reserved, and neighbouring reserved
  parts are one field.

  Key definitions include:
    * `Field`
    * `WordLayout`
    * `WordLayout.ofMachine`
    * `WordLayout.fields`
    * `WordLayout.field?`
    * `WordLayout.Tiled`
-/

namespace Systolic

------------------------------------------------------------
-- Fields
------------------------------------------------------------

/- A range of bits of a word. -/
structure Field where
  name : FieldName
  offset : Nat
  width : Nat
deriving DecidableEq, Repr

namespace Field

/- Powers are those of the natural numbers themselves. -/
attribute [local instance (high)] instPowNat

/- The first bit after a field. -/
def stop (f : Field) : Nat :=
  f.offset + f.width

/- A reserved field holds no operand and must be clear. -/
def IsReserved (f : Field) : Prop :=
  f.name = .reserved

instance (f : Field) : Decidable f.IsReserved := by
  unfold IsReserved
  infer_instance

/- The largest count that a field can hold. -/
def maxValue (f : Field) : Nat :=
  min (2 ^ f.width - 1) Count.largest

/- The lowest 64 bits of a field of a word. -/
def extract
    (f : Field)
    (word : Nat) : Nat :=
  word / 2 ^ f.offset % 2 ^ f.width % Count.limit

end Field

------------------------------------------------------------
-- Layouts
------------------------------------------------------------

/- The widths of the selector of a vector operation, flags and opcode. -/
def simdOpBits : Nat := 4

def flagsBits : Nat := 4

def opcodeBits : Nat := 4

/- The widths of the three operand slots, and of the word. -/
structure WordLayout where
  slot0 : Nat
  slot1 : Nat
  slot2 : Nat
  wordBits : Nat
deriving DecidableEq, Repr

namespace WordLayout

/- The layout of a machine, if its word is not too wide. -/
def ofMachine (m : Machine) : Except MachineFault WordLayout :=
  let slot0 := max m.localBits simdOpBits
  let slot1 := max m.accumulatorBits m.dramBits
  let slot2 := max m.sizeBits m.accumulatorBits
  let wordBits := Count.roundUp (slot0 + slot1 + slot2 + flagsBits + opcodeBits) 8
  if wordBits ≤ maxWordBits then
    .ok { slot0, slot1, slot2, wordBits }
  else
    .error (.wideWord wordBits)

/- The bytes of a word. -/
def wordBytes (w : WordLayout) : Nat :=
  w.wordBits / 8

/- The lowest flag bit. -/
def flagsOffset (w : WordLayout) : Nat :=
  w.wordBits - (flagsBits + opcodeBits)

/- The lowest bit of the opcode. -/
def opcodeOffset (w : WordLayout) : Nat :=
  w.flagsOffset + flagsBits

------------------------------------------------------------
-- The Fields of a Kind
------------------------------------------------------------

/- The names of the three slots for each kind. -/
def slotNames : Opcode → FieldName × FieldName × FieldName
| .noOp => (.reserved, .reserved, .reserved)
| .matMul => (.localAddress, .accumulatorAddress, .size)
| .dataMove => (.localAddress, .address, .size)
| .loadWeight => (.localAddress, .reserved, .size)
| .simd => (.simdOp, .readAddress, .writeAddress)

/-
  Give offsets to named widths from a given bit on. Empty parts
  are left out, and a reserved part right after a reserved field
  widens that field.
-/
def place : Nat → List (FieldName × Nat) → List Field
| _, [] => []
| offset, (name, width) :: rest =>
    let later := place (offset + width) rest
    if width = 0 then later
    else
      match later with
      | f :: fs =>
          if name = .reserved ∧ f.IsReserved then
            { name, offset, width := width + f.width } :: fs
          else
            { name, offset, width } :: f :: fs
      | [] => [{ name, offset, width }]

/- The fields of one kind of instruction, from the lowest bit up. -/
def fields
    (w : WordLayout)
    (op : Opcode) : List Field :=
  let (n0, n1, n2) := slotNames op
  place 0
    [ (n0, w.slot0), (n1, w.slot1), (n2, w.slot2),
      (.reserved, w.flagsOffset - (w.slot0 + w.slot1 + w.slot2)),
      (.flags, flagsBits), (.opcode, opcodeBits) ]

/- The field of a given name in one kind of instruction. -/
def field?
    (w : WordLayout)
    (op : Opcode)
    (name : FieldName) : Option Field :=
  (w.fields op).find? (fun f => f.name = name)

------------------------------------------------------------
-- Coverage
------------------------------------------------------------

/- Fields that follow one another without a gap, from one bit to another. -/
def Consecutive : Nat → List Field → Nat → Prop
| start, [], stop => start = stop
| start, f :: fs, stop =>
    f.offset = start ∧ 0 < f.width ∧ Consecutive f.stop fs stop

instance decidableConsecutive :
    ∀ (start : Nat) (fs : List Field) (stop : Nat),
      Decidable (Consecutive start fs stop)
| start, [], stop => inferInstanceAs (Decidable (start = stop))
| start, f :: fs, stop =>
    have := decidableConsecutive f.stop fs stop
    inferInstanceAs
      (Decidable (f.offset = start ∧ 0 < f.width ∧ Consecutive f.stop fs stop))

/- The fields of every kind cover the word exactly. -/
def Tiled (w : WordLayout) : Prop :=
  ∀ op ∈ Opcode.all, Consecutive 0 (w.fields op) w.wordBits

instance (w : WordLayout) : Decidable w.Tiled := by
  unfold Tiled
  infer_instance

end WordLayout

end Systolic
