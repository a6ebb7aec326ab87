import Systolic.Program.Operation
import Systolic.Memory.Basic

/-
  This file defines the instructions of an operation whose
  tensors have their places on the chip and in DRAM.

  Key definitions include:
    * `Placement`
    * `InstructionSeq`
    * `Operation.product`
    * `Operation.instructions`
    * `Operation.encode`
-/

namespace Systolic

------------------------------------------------------------
-- Places of Tensors
------------------------------------------------------------

/- Where the tensors of a program are at one moment. -/
structure Placement where
  machine : Machine
  tensors : TensorTable
  memory : Memory

namespace Placement

/- The address of a tensor in the memory that it must be in. -/
def onChip
    (p : Placement)
    (op : Operation)
    (kind : MemoryKind)
    (t : TensorId) : Except CompileError Nat :=
  match p.memory.binding? t with
  | some b =>
      if b.kind = kind then .ok b.address
      else
        .error (.scheduling (.wrongMemory (p.tensors.name t) b.kind kind)
          (op.describe p.tensors))
  | none =>
      .error (.scheduling (.notResident (p.tensors.name t) t)
        (op.describe p.tensors))

/- The depth of a bank. -/
def bankDepth
    (p : Placement) : DramBank → Nat
| .dram0 => p.machine.dram0Depth
| .dram1 => p.machine.dram1Depth

/- A location of `size` vectors that must lie inside its bank. -/
def inDram
    (p : Placement)
    (op : Operation)
    (location : Option DramLocation)
    (size : Nat) : Except CompileError DramLocation :=
  match location with
  | none =>
      .error (.scheduling (.noDramLocation (p.tensors.name op.subject))
        (op.describe p.tensors))
  | some l =>
      if l.address + size ≤ p.bankDepth l.bank then .ok l
      else
        .error (.encoding (.beyondBank (op.describe p.tensors) l size
          (p.bankDepth l.bank)))

end Placement

------------------------------------------------------------
-- Sequences
------------------------------------------------------------

/-
  Instructions in a row, given by their number and by the one at
  each place. A row can be far longer than the part of it that
  fits a machine, so it is not held as a list.
-/
structure InstructionSeq where
  count : Nat
  get : Nat → Instruction

namespace InstructionSeq

/- One instruction. -/
def single (i : Instruction) : InstructionSeq :=
  { count := 1, get := fun _ => i }

/- One row after another. -/
def append
    (s t : InstructionSeq) : InstructionSeq :=
  { count := s.count + t.count
    get := fun k => if k < s.count then s.get k else t.get (k - s.count) }

/- The instructions as a list. -/
def toList (s : InstructionSeq) : List Instruction :=
  (List.range s.count).map s.get

end InstructionSeq

------------------------------------------------------------
-- Instructions
------------------------------------------------------------

namespace Operation

/- The direction of a move onto the chip. -/
def directionFrom : DramBank → Direction
| .dram0 => .dram0ToLocal
| .dram1 => .dram1ToLocal

/- The direction of a move off the chip. -/
def directionTo : DramBank → Direction
| .dram0 => .localToDram0
| .dram1 => .localToDram1

/- Move a tensor between the chip and a location in DRAM. -/
def move
    (p : Placement)
    (op : Operation)
    (t : TensorId)
    (direction : DramBank → Direction)
    (location? : Tensor → Option DramLocation) :
    Except CompileError InstructionSeq := do
  let tensor ← p.tensors.fetch t
  let size := tensor.layout.depth
  let location ← p.inDram op (location? tensor) size
  let address ← p.onChip op .scratchpad t
  return .single
    (.dataMove (direction location.bank) address location.address size)

/- The numbers that shape the tiles of a product. -/
structure Tiling where
  arraySize : Nat
  rows : Nat
  inTiles : Nat
  outTiles : Nat
  weightStride : Nat
deriving DecidableEq, Repr

/- Where the operands and the result of a product are. -/
structure ProductPlace where
  input : Nat
  weights : Nat
  bias : Option Nat
  output : Nat
deriving DecidableEq, Repr

/- Copy the bias vector of an output tile into one of its rows. -/
def seedRow
    (s : Tiling)
    (a : ProductPlace)
    (bias j r : Nat) : Instruction :=
  .dataMove .localToAccumulator (bias + j) (a.output + j * s.rows + r) 1

/-
  Half of the multiplication of an input tile by a weight block:
  even halves load the block, odd ones stream the tile.
-/
def blockHalf
    (s : Tiling)
    (a : ProductPlace)
    (j half : Nat) : Instruction :=
  let i := half / 2
  if half % 2 = 0 then
    .loadWeight false (a.weights + j * s.weightStride + i * s.arraySize) s.arraySize
  else
    .matMul (a.bias.isSome || 0 < i) false (a.input + i * s.rows)
      (a.output + j * s.rows) s.rows

/- The instruction at a place of an output tile: first the bias rows. -/
def tileInstruction
    (s : Tiling)
    (a : ProductPlace)
    (j place : Nat) : Instruction :=
  match a.bias with
  | none => blockHalf s a j place
  | some b =>
      if place < s.rows then seedRow s a b j place
      else blockHalf s a j (place - s.rows)

/- The number of instructions of an output tile. -/
def tileLength
    (s : Tiling)
    (a : ProductPlace) : Nat :=
  (if a.bias.isSome then s.rows else 0) + 2 * s.inTiles

/- The instructions of a product, output tile after output tile. -/
def product
    (s : Tiling)
    (a : ProductPlace) : InstructionSeq :=
  let length := tileLength s a
  { count := s.outTiles * length
    get := fun k => tileInstruction s a (k / length) (k % length) }

/- Rectify accumulator vectors in place. -/
def rectify
    (address size : Nat) : InstructionSeq :=
  { count := size
    get := fun v => .simd .relu true true false (address + v) (address + v) }

/- The instructions of an operation. -/
def instructions
    (p : Placement)
    (op : Operation) : Except CompileError InstructionSeq :=
  match op with
  | load t => move p op t directionFrom (·.home)
  | reload t => move p op t directionFrom (·.dramCopy)
  | store t => move p op t directionTo (·.exported)
  | spill t => move p op t directionTo (·.spilled)
  | matMul input weights bias output => do
      let x ← p.onChip op .scratchpad input
      let w ← p.onChip op .scratchpad weights
      let out ← p.onChip op .accumulator output
      let b ← bias.mapM (p.onChip op .scratchpad)
      let xs := (← p.tensors.fetch input).layout
      let ws := (← p.tensors.fetch weights).layout
      let os := (← p.tensors.fetch output).layout
      let s : Tiling :=
        { arraySize := p.machine.arraySize, rows := xs.rows, inTiles := xs.tiles
          outTiles := os.tiles, weightStride := ws.stride }
      return product s { input := x, weights := w, bias := b, output := out }
  | accumulate input output add => do
      let x ← p.onChip op .scratchpad input
      let out ← p.onChip op .accumulator output
      let size := (← p.tensors.fetch input).layout.depth
      let direction :=
        if add then Direction.addToAccumulator else Direction.localToAccumulator
      return .single (.dataMove direction x out size)
  | activate input output activation => do
      let acc ← p.onChip op .accumulator input
      let size := (← p.tensors.fetch input).layout.depth
      let out ← p.onChip op .scratchpad output
      let move := InstructionSeq.single (.dataMove .accumulatorToLocal out acc size)
      return match activation with
        | .relu => (rectify acc size).append move
        | .identity => move

end Operation

------------------------------------------------------------
-- Words
------------------------------------------------------------

/- Instructions and the bytes of their words. -/
structure Encoded where
  instructions : List Instruction
  bytes : List UInt8
deriving DecidableEq, Repr

/-
  Encode instructions from a place on, behind those that are
  done, newest first. The first one that does not fit ends this.
-/
def WordLayout.encodeFrom
    (w : WordLayout)
    (s : InstructionSeq) :
    Nat → Nat → List Instruction → List UInt8 → Except FieldOverflow Encoded
| 0, _, is, bytes => .ok { instructions := is.reverse, bytes := bytes.reverse }
| rest + 1, k, is, bytes =>
    match w.encode (s.get k) with
    | .error e => .error e
    | .ok word => w.encodeFrom s rest (k + 1) (s.get k :: is) (word.reverseAux bytes)

/- Encode instructions in a row. -/
def WordLayout.encodeSeq
    (w : WordLayout)
    (s : InstructionSeq) : Except FieldOverflow Encoded :=
  w.encodeFrom s s.count 0 [] []

/- The instructions and words of an operation. -/
def Operation.encode
    (w : WordLayout)
    (p : Placement)
    (op : Operation) : Except CompileError Encoded := do
  op.checkMentions p.tensors
  let s ← op.instructions p
  match w.encodeSeq s with
  | .error overflow => .error (.ofField (op.describe p.tensors) overflow)
  | .ok encoded => return encoded

end Systolic
