import Systolic.Text.Numeral

/-
  This file defines the instructions of the machine, apart from
  their place in a word: opcodes, flags, named operands, and
  the line that a listing prints for an instruction.

  Key definitions include:
    * `Opcode`
    * `Instruction`
    * `Instruction.ofFields`
    * `Instruction.text`
-/

namespace Systolic

------------------------------------------------------------
-- Opcodes
------------------------------------------------------------

/- The kinds of instruction. -/
inductive Opcode where
| noOp
| matMul
| dataMove
| loadWeight
| simd
deriving DecidableEq, Repr

namespace Opcode

/- Every opcode, in the order of their values. -/
def all : List Opcode :=
  [noOp, matMul, dataMove, loadWeight, simd]

/- The four bits of an opcode. -/
def bits : Opcode → Nat
| noOp => 0
| matMul => 1
| dataMove => 2
| loadWeight => 3
| simd => 4

/- The opcode of a given value. -/
def ofBits? (n : Nat) : Option Opcode :=
  all.find? (fun op => op.bits == n)

/- The name of an opcode. -/
def mnemonic : Opcode → String
| noOp => "NoOp"
| matMul => "MatMul"
| dataMove => "DataMove"
| loadWeight => "LoadWeight"
| simd => "Simd"

end Opcode

------------------------------------------------------------
-- Directions of Data Moves
------------------------------------------------------------

/- Where a data move reads and where it writes. -/
inductive Direction where
| dram0ToLocal
| localToDram0
| dram1ToLocal
| localToDram1
| accumulatorToLocal
| localToAccumulator
| addToAccumulator
deriving DecidableEq, Repr

namespace Direction

/- Every direction. -/
def all : List Direction :=
  [dram0ToLocal, localToDram0, dram1ToLocal, localToDram1,
    accumulatorToLocal, localToAccumulator, addToAccumulator]

/- The flags of a direction. -/
def bits : Direction → Nat
| dram0ToLocal => 0b0000
| localToDram0 => 0b0001
| dram1ToLocal => 0b0010
| localToDram1 => 0b0011
| accumulatorToLocal => 0b1100
| localToAccumulator => 0b1101
| addToAccumulator => 0b1111

/- The direction of given flags. -/
def ofBits? (n : Nat) : Option Direction :=
  all.find? (fun d => d.bits == n)

/- The name of a direction. -/
def mnemonic : Direction → String
| dram0ToLocal => "dram0->local"
| localToDram0 => "local->dram0"
| dram1ToLocal => "dram1->local"
| localToDram1 => "local->dram1"
| accumulatorToLocal => "acc->local"
| localToAccumulator => "local->acc"
| addToAccumulator => "local->acc+"

end Direction

------------------------------------------------------------
-- Vector Operations
------------------------------------------------------------

/- What the vector unit does to an accumulator vector. -/
inductive SimdOp where
| zero
| move
| relu
deriving DecidableEq, Repr

namespace SimdOp

/- Every vector operation. -/
def all : List SimdOp :=
  [zero, move, relu]

/- The selector of a vector operation. -/
def bits : SimdOp → Nat
| zero => 0
| move => 1
| relu => 2

/- The vector operation of a given selector. -/
def ofBits? (n : Nat) : Option SimdOp :=
  all.find? (fun op => op.bits == n)

/- The name of a vector operation. -/
def mnemonic : SimdOp → String
| zero => "zero"
| move => "move"
| relu => "relu"

end SimdOp

------------------------------------------------------------
-- Field Names
------------------------------------------------------------

/- The names of the parts of an instruction word. -/
inductive FieldName where
| localAddress
| accumulatorAddress
| address
| size
| simdOp
| readAddress
| writeAddress
| reserved
| flags
| opcode
deriving DecidableEq, Repr

/- The text of a field name. -/
def FieldName.text : FieldName → String
| localAddress => "local_address"
| accumulatorAddress => "accumulator_address"
| address => "address"
| size => "size"
| simdOp => "simd_op"
| readAddress => "read_address"
| writeAddress => "write_address"
| reserved => "reserved"
| flags => "flags"
| opcode => "opcode"

------------------------------------------------------------
-- Instructions
------------------------------------------------------------

/- An instruction with its operands. Sizes count vectors. -/
inductive Instruction where
| noOp
| matMul
    (accumulate zeroes : Bool)
    (localAddress accumulatorAddress size : Nat)
| dataMove
    (direction : Direction)
    (localAddress address size : Nat)
| loadWeight
    (zeroes : Bool)
    (localAddress size : Nat)
| simd
    (op : SimdOp)
    (read write accumulate : Bool)
    (readAddress writeAddress : Nat)
deriving DecidableEq, Repr

/- The value of a flag bit that is set or clear. -/
def flagBit
    (set : Bool)
    (value : Nat) : Nat :=
  if set then value else 0

/- Whether the flag bit of a given weight is set. -/
def hasFlag
    (flags weight : Nat) : Bool :=
  flags / weight % 2 == 1

/- Why the fields of a word are no instruction. -/
inductive FieldFault where
| flags (value : Nat)
| simdOp (value : Nat)
deriving DecidableEq, Repr

namespace Instruction

/- The opcode of an instruction. -/
def opcode : Instruction → Opcode
| noOp => .noOp
| matMul .. => .matMul
| dataMove .. => .dataMove
| loadWeight .. => .loadWeight
| simd .. => .simd

/- The flags of an instruction. -/
def flags : Instruction → Nat
| noOp => 0
| matMul accumulate zeroes _ _ _ => flagBit accumulate 1 + flagBit zeroes 2
| dataMove direction _ _ _ => direction.bits
| loadWeight zeroes _ _ => flagBit zeroes 1
| simd _ read write accumulate _ _ =>
    flagBit read 1 + flagBit write 2 + flagBit accumulate 4

/- The operands of an instruction, by field name. -/
def operands : Instruction → List (FieldName × Nat)
| noOp => []
| matMul _ _ l a n =>
    [(.localAddress, l), (.accumulatorAddress, a), (.size, n)]
| dataMove _ l a n =>
    [(.localAddress, l), (.address, a), (.size, n)]
| loadWeight _ l n =>
    [(.localAddress, l), (.size, n)]
| simd op _ _ _ r w =>
    [(.simdOp, op.bits), (.readAddress, r), (.writeAddress, w)]

/- The instruction with given flags and operand values. -/
def ofFields
    (op : Opcode)
    (flags : Nat)
    (value : FieldName → Nat) : Except FieldFault Instruction :=
  match op with
  | .noOp =>
      if flags = 0 then .ok noOp else .error (.flags flags)
  | .matMul =>
      if flags < 4 then
        .ok (matMul (hasFlag flags 1) (hasFlag flags 2)
          (value .localAddress) (value .accumulatorAddress) (value .size))
      else .error (.flags flags)
  | .dataMove =>
      match Direction.ofBits? flags with
      | some direction =>
          .ok (dataMove direction
            (value .localAddress) (value .address) (value .size))
      | none => .error (.flags flags)
  | .loadWeight =>
      if flags < 2 then
        .ok (loadWeight (hasFlag flags 1)
          (value .localAddress) (value .size))
      else .error (.flags flags)
  | .simd =>
      if flags < 8 then
        match SimdOp.ofBits? (value .simdOp) with
        | some sop =>
            .ok (simd sop (hasFlag flags 1) (hasFlag flags 2) (hasFlag flags 4)
              (value .readAddress) (value .writeAddress))
        | none => .error (.simdOp (value .simdOp))
      else .error (.flags flags)

------------------------------------------------------------
-- Listing Lines
------------------------------------------------------------

/- A suffix that is written when a flag is set. -/
def mark
    (set : Bool)
    (suffix : String) : String :=
  if set then suffix else ""

/- The line of an instruction in a listing. -/
def text : Instruction → String
| noOp => "NoOp"
| matMul accumulate zeroes l a n =>
    "MatMul" ++ mark accumulate ".acc" ++ mark zeroes ".zeroes" ++
      " local=" ++ addressText l ++ " acc=" ++ addressText a ++
      " size=" ++ toString n
| dataMove direction l a n =>
    "DataMove." ++ direction.mnemonic ++
      " local=" ++ addressText l ++ " address=" ++ addressText a ++
      " size=" ++ toString n
| loadWeight zeroes l n =>
    "LoadWeight" ++ mark zeroes ".zeroes" ++
      " local=" ++ addressText l ++ " size=" ++ toString n
| simd op read write accumulate r w =>
    "Simd." ++ op.mnemonic ++
      mark read ".r" ++ mark write ".w" ++ mark accumulate ".acc" ++
      " read=" ++ addressText r ++ " write=" ++ addressText w

end Instruction

end Systolic
