import Systolic.Instruction.WordLayout

/-
  This file defines the words of instructions. An address is
  written as it is, a number of vectors is written less one,
  and a word is written as bytes from its lowest byte up.

  Key definitions include:
    * `FieldOverflow`
    * `WordLayout.encodeWord`
    * `WordLayout.encode`
    * `DecodeFault`
    * `WordLayout.decode`
    * `WordLayout.decodeStream`
-/

namespace Systolic

/- Powers are those of the natural numbers themselves. -/
attribute [local instance (high)] instPowNat

------------------------------------------------------------
-- Bytes of a Word
------------------------------------------------------------

/- The lowest `n` bytes of a number, lowest first. -/
def littleEndian : Nat → Nat → List UInt8
| 0, _ => []
| n + 1, word => (word % 256).toUInt8 :: littleEndian n (word / 256)

/- The number with given bytes, lowest first. -/
def ofLittleEndian : List UInt8 → Nat
| [] => 0
| b :: bs => b.toNat + 256 * ofLittleEndian bs

------------------------------------------------------------
-- Encoding
------------------------------------------------------------

/- An operand that does not fit its field. -/
structure FieldOverflow where
  field : FieldName
  value : Nat
  limit : Nat
deriving DecidableEq, Repr

namespace Field

/-
  The bits of an operand in its field. A size must be positive
  and is written less one.
-/
def raw
    (f : Field)
    (value : Nat) : Except FieldOverflow Nat :=
  if f.name = .size then
    if value = 0 ∨ f.maxValue < value - 1 then
      .error { field := .size, value, limit := Count.addSat f.maxValue 1 }
    else .ok (value - 1)
  else if f.maxValue < value then
    .error { field := f.name, value, limit := f.maxValue }
  else .ok value

/- The operand whose bits are in a field of a word. -/
def operand
    (f : Field)
    (word : Nat) : Nat :=
  if f.name = .size then f.extract word + 1 else f.extract word

end Field

namespace WordLayout

/- The sum of the operand bits at the offsets of their fields. -/
def encodeOperands
    (fields : List Field) : List (FieldName × Nat) → Except FieldOverflow Nat
| [] => .ok 0
| (name, value) :: rest =>
    match fields.find? (fun f => f.name = name) with
    | none => encodeOperands fields rest
    | some f =>
        match f.raw value with
        | .error e => .error e
        | .ok bits =>
            match encodeOperands fields rest with
            | .error e => .error e
            | .ok word => .ok (bits * 2 ^ f.offset + word)

/- The word of an instruction as a number. -/
def encodeWord
    (w : WordLayout)
    (i : Instruction) : Except FieldOverflow Nat :=
  match encodeOperands (w.fields i.opcode) i.operands with
  | .error e => .error e
  | .ok word =>
      .ok (word + i.flags * 2 ^ w.flagsOffset + i.opcode.bits * 2 ^ w.opcodeOffset)

/- The bytes of an instruction. -/
def encode
    (w : WordLayout)
    (i : Instruction) : Except FieldOverflow (List UInt8) :=
  (w.encodeWord i).map (littleEndian w.wordBytes)

------------------------------------------------------------
-- Decoding
------------------------------------------------------------

end WordLayout

/- Why bytes are no instruction. -/
inductive DecodeFault where
| unknownOpcode (index bits : Nat)
| invalidFlags (index : Nat) (op : Opcode) (flags : Nat)
| invalidSimdOp (index bits : Nat)
| wrongLength (length wordBytes : Nat)
| reservedBits (index : Nat)
deriving DecidableEq, Repr

/- The wording of a decoding failure. -/
def DecodeFault.message : DecodeFault → String
| unknownOpcode index bits =>
    s!"Instruction {index}: unknown opcode {hexText bits}"
| invalidFlags index op flags =>
    s!"Instruction {index}: invalid flags {flagsText flags} for {op.mnemonic}"
| invalidSimdOp index bits =>
    s!"Instruction {index}: invalid SIMD operation {bits}"
| wrongLength length wordBytes =>
    s!"Stream of {length} bytes is not a multiple of the {wordBytes} byte word"
| reservedBits index =>
    s!"Instruction {index}: reserved bits are set"

namespace WordLayout

/- The operand of a given name in a word, or zero bits if it has none. -/
def operandOf
    (w : WordLayout)
    (op : Opcode)
    (word : Nat)
    (name : FieldName) : Nat :=
  match w.field? op name with
  | some f => f.operand word
  | none => if name = .size then 1 else 0

/- The instruction of a word, where `index` labels errors. -/
def decodeWord
    (w : WordLayout)
    (index word : Nat) : Except DecodeFault Instruction :=
  let bits := word / 2 ^ w.opcodeOffset % 16
  match Opcode.ofBits? bits with
  | none => .error (.unknownOpcode index bits)
  | some op =>
      if (w.fields op).any (fun f => f.IsReserved ∧ f.extract word ≠ 0) then
        .error (.reservedBits index)
      else
        match Instruction.ofFields op (word / 2 ^ w.flagsOffset % 16)
            (w.operandOf op word) with
        | .ok i => .ok i
        | .error (.flags flags) => .error (.invalidFlags index op flags)
        | .error (.simdOp bits) => .error (.invalidSimdOp index bits)

/- The instruction of the bytes of one word. -/
def decode
    (w : WordLayout)
    (index : Nat)
    (bytes : List UInt8) : Except DecodeFault Instruction :=
  if bytes.length = w.wordBytes then
    w.decodeWord index (ofLittleEndian bytes)
  else
    .error (.wrongLength bytes.length w.wordBytes)

/-
  Decode `n` words in a row, the first of them at `index`, behind
  the instructions that are done, newest first.
-/
def decodeWords
    (w : WordLayout) :
    Nat → Nat → List Instruction → List UInt8 →
      Except DecodeFault (List Instruction)
| 0, _, is, _ => .ok is.reverse
| n + 1, index, is, bytes =>
    match w.decode index (bytes.take w.wordBytes) with
    | .error e => .error e
    | .ok i => w.decodeWords n (index + 1) (i :: is) (bytes.drop w.wordBytes)

/- The instructions of a stream of words. -/
def decodeStream
    (w : WordLayout)
    (bytes : List UInt8) : Except DecodeFault (List Instruction) :=
  if bytes.length % w.wordBytes = 0 then
    w.decodeWords (bytes.length / w.wordBytes) 0 [] bytes
  else
    .error (.wrongLength bytes.length w.wordBytes)

end WordLayout

end Systolic
