import Systolic.Graph.Network
import Systolic.Program.Operation
import Systolic.Program.Workbench

/-
  This file defines the lowering of a network to a program of
  operations.

  Inputs and constants are loaded right before their first use.
  A product is computed into the accumulator memory and then
  activated into local memory; a sum accumulates its operands
  one after the other and is then activated. A rectifier whose
  operand is a product or a sum that nothing else uses becomes
  the activation of that operand; any other one accumulates its
  operand and activates it. A requested output is stored as soon
  as it is there.

  Key definitions include:
    * `Plan`
    * `Plan.fused?`
    * `Lowering`
    * `Lower`
    * `Lower.node`
    * `lowerNodes`
-/

namespace Systolic

variable {ν : Type} [DecidableEq ν]

------------------------------------------------------------
-- Plans
------------------------------------------------------------

/- What lowering has to know about all nodes at once. -/
structure Plan (ν : Type) where
  network : Network ν
  nodes : List ν
  outputs : List ν

namespace Plan

/- The plan of nodes to lower for named outputs. -/
def ofNodes
    (net : Network ν)
    (outputs : List String)
    (nodes : List ν) : Except GraphError (Plan ν) :=
  match net.roots outputs with
  | .error e => .error e
  | .ok roots => .ok { network := net, nodes, outputs := roots }

/- A node is the second operand of a product. -/
def IsWeight
    (p : Plan ν)
    (n : ν) : Prop :=
  ∃ m ∈ p.nodes,
    p.network.op m = .matMul ∧ (p.network.operands m)[1]? = some n

instance
    (p : Plan ν)
    (n : ν) :
    Decidable (p.IsWeight n) := by
  unfold IsWeight
  infer_instance

/- How often a node is an operand. -/
def uses
    (p : Plan ν)
    (n : ν) : Nat :=
  (p.nodes.flatMap p.network.operands).count n

/- A product or sum that is used once and is no output. -/
def Fusible
    (p : Plan ν)
    (n : ν) : Prop :=
  (p.network.op n = .matMul ∨ p.network.op n = .add) ∧
    p.uses n = 1 ∧ n ∉ p.outputs

instance
    (p : Plan ν)
    (n : ν) :
    Decidable (p.Fusible n) := by
  unfold Fusible
  infer_instance

/- The rectifier that is the activation of a node. -/
def fused?
    (p : Plan ν)
    (n : ν) : Option ν :=
  if p.Fusible n then
    p.nodes.find?
      (fun r => p.network.op r = .relu ∧ p.network.operands r = [n])
  else none

end Plan

------------------------------------------------------------
-- State
------------------------------------------------------------

/- The tensor of a node, and whether it has yet to be loaded. -/
structure Value where
  tensor : TensorId
  shape : List Nat
  needsLoad : Bool
deriving DecidableEq, Repr

/- The workbench, the nodes lowered so far and their operations. -/
structure Lowering (ν : Type) where
  bench : Workbench
  values : List (ν × Value)
  program : List Operation

/- A step of lowering. -/
abbrev Lower (ν α : Type) :=
  EStateM CompileError (Lowering ν) α

namespace Lowering

/- Nothing is lowered yet. -/
def start (bench : Workbench) : Lowering ν :=
  { bench, values := [], program := [] }

/- The value of a node that is lowered. -/
def value?
    (s : Lowering ν)
    (n : ν) : Option Value :=
  (s.values.find? (fun v => v.1 = n)).map (·.2)

/- Set the value of a node. -/
def define
    (s : Lowering ν)
    (n : ν)
    (v : Value) : Lowering ν :=
  { s with values := (n, v) :: s.values }

/- Append an operation. -/
def push
    (s : Lowering ν)
    (op : Operation) : Lowering ν :=
  { s with program := s.program ++ [op] }

end Lowering

namespace Lower

------------------------------------------------------------
-- Operands
------------------------------------------------------------

/- Fail because of a node. -/
def malformed
    {α : Type}
    (p : Plan ν)
    (n : ν)
    (fault : NodeFault) : Lower ν α :=
  throw (.graph (.malformed (p.network.name n) fault))

/- Append an operation. -/
def push (op : Operation) : Lower ν Unit :=
  modify (·.push op)

/- Set the value of a node. -/
def define
    (n : ν)
    (tensor : TensorId)
    (shape : List Nat)
    (needsLoad : Bool) : Lower ν Unit :=
  modify (·.define n { tensor, shape, needsLoad })

/- The value of a node that must be lowered. -/
def value
    (p : Plan ν)
    (n : ν) : Lower ν Value := do
  match (← get).value? n with
  | some v => return v
  | none => malformed p n .usedBeforeDefined

/- The tensor of an operand, which is loaded if need be. -/
def operand
    (p : Plan ν)
    (n : ν) : Lower ν TensorId := do
  let v ← value p n
  if v.needsLoad then
    define n v.tensor v.shape false
    push (.load v.tensor)
  return v.tensor

/- An operand that is not padded as a weight matrix. -/
def elementwise
    (p : Plan ν)
    (n : ν) : Lower ν TensorId := do
  let t ← operand p n
  match (← get).bench.tensors.get? t with
  | none => throw (.undefined (.noTensor t))
  | some tensor =>
      if tensor.layout.IsVariable then return t
      else malformed p n .weightElementwise

------------------------------------------------------------
-- Tensors
------------------------------------------------------------

/- The layout of a node's value, given how shapes are laid out. -/
def layout
    (make : List Nat → Nat → Except LayoutFault VectorLayout)
    (p : Plan ν)
    (n : ν)
    (shape : List Nat) : Lower ν VectorLayout := do
  match make shape (← get).bench.machine.arraySize with
  | .ok l => return l
  | .error .tooLarge => malformed p n (.tooLarge shape)
  | .error .emptyVector => throw (.undefined .vectorSize)

/- Change the workbench by a step that may fail. -/
def onBench
    {α : Type}
    (step : Workbench → Except CompileError (α × Workbench)) : Lower ν α := do
  let s ← get
  match step s.bench with
  | .error e => throw e
  | .ok (a, bench) =>
      set { s with bench }
      return a

/- A new accumulator tensor for a node. -/
def accumulator
    (p : Plan ν)
    (n : ν)
    (shape : List Nat) : Lower ν TensorId := do
  let l ← layout VectorLayout.ofVariable p n shape
  onBench (fun w => .ok (w.addAccumulator (p.network.name n ++ ".acc") l))

/- A new tensor for the value of a node, under a node's name. -/
def result
    (p : Plan ν)
    (n named : ν)
    (shape : List Nat) : Lower ν TensorId := do
  let l ← layout VectorLayout.ofVariable p n shape
  onBench (fun w => .ok (w.addIntermediate (p.network.name named) l))

/-
  Activate the accumulator tensor of a node after the last
  operations that fill it. The value gets the name of the
  rectifier that is fused into the node.
-/
def activate
    (p : Plan ν)
    (n : ν)
    (shape : List Nat)
    (acc : TensorId)
    (filling : List Operation) : Lower ν Unit := do
  match p.fused? n with
  | some relu =>
      let output ← result p n relu shape
      filling.forM push
      push (.activate acc output .relu)
      define relu output shape false
      define n output shape false
  | none =>
      let output ← result p n n shape
      filling.forM push
      push (.activate acc output .identity)
      define n output shape false

------------------------------------------------------------
-- Nodes
------------------------------------------------------------

/- Store the value of a requested output. -/
def finish
    (p : Plan ν)
    (n : ν) : Lower ν Unit := do
  if n ∈ p.outputs then
    let t ← operand p n
    let _ ← onBench (·.exportTensor t)
    push (.store t)

/- Refuse a node with another number of operands. -/
def checkArity
    (p : Plan ν)
    (n : ν)
    (arity : Nat) : Lower ν Unit := do
  let got := (p.network.operands n).length
  if got ≠ arity then
    malformed p n (.arity (p.network.op n).name arity got)

/- Refuse a shape without dimensions or with an empty one. -/
def checkShape
    (p : Plan ν)
    (n : ν)
    (shape : List Nat) : Lower ν Unit := do
  if shape = [] ∨ 0 ∈ shape then malformed p n (.invalidShape shape)

/- Lower an input. -/
def input
    (p : Plan ν)
    (n : ν)
    (shape : List Nat) : Lower ν Unit := do
  checkArity p n 0
  checkShape p n shape
  let l ← layout VectorLayout.ofVariable p n shape
  let t ← onBench (·.addInput (p.network.name n) l)
  define n t shape true

/- Lower a constant. -/
def constant
    (p : Plan ν)
    (n : ν)
    (shape : List Nat) : Lower ν Unit := do
  checkArity p n 0
  checkShape p n shape
  let l ← if p.IsWeight n then layout VectorLayout.ofConstant p n shape
    else layout VectorLayout.ofVariable p n shape
  let t ← onBench (·.addConstant (p.network.name n) l)
  define n t shape true

/- Refuse an operand of a product that is no constant. -/
def checkConstant
    (p : Plan ν)
    (n c : ν) : Lower ν Unit := do
  if ¬ (p.network.op c).IsConstant then
    malformed p n (.notConstant (p.network.name c))

/- The shape of a product of an input and a weight matrix. -/
def productShape
    (p : Plan ν)
    (n : ν)
    (x w : List Nat) : Lower ν (List Nat × Nat) := do
  match w with
  | [k, columns] =>
      match x.getLast? with
      | none => malformed p n .noDimensions
      | some inner =>
          if inner = k then return (x.dropLast ++ [columns], columns)
          else malformed p n (.innerDimensions x w)
  | _ => malformed p n (.weightRank w)

/- Lower a product of an input, a weight matrix and perhaps a bias. -/
def matMul
    (p : Plan ν)
    (n x w : ν)
    (bias : Option ν) : Lower ν Unit := do
  checkConstant p n w
  bias.forM (checkConstant p n)
  let xs := (← value p x).shape
  let ws := (← value p w).shape
  let (shape, columns) ← productShape p n xs ws
  bias.forM (fun b => do
    let bs := (← value p b).shape
    if bs ≠ [columns] then malformed p n (.biasShape bs columns))
  let input ← elementwise p x
  let weights ← operand p w
  let b ← bias.mapM (operand p)
  let acc ← accumulator p n shape
  activate p n shape acc [.matMul input weights b acc]

/- Lower a sum of two operands of one shape. -/
def add
    (p : Plan ν)
    (n a b : ν) : Lower ν Unit := do
  let shape := (← value p a).shape
  let other := (← value p b).shape
  if shape ≠ other then malformed p n (.operandShapes shape other)
  let acc ← accumulator p n shape
  let first ← elementwise p a
  push (.accumulate first acc false)
  let second ← elementwise p b
  push (.accumulate second acc true)
  activate p n shape acc []

/- Lower a rectifier that is not fused into its operand. -/
def relu
    (p : Plan ν)
    (n a : ν) : Lower ν Unit := do
  let shape := (← value p a).shape
  let input ← elementwise p a
  let acc ← accumulator p n shape
  let output ← result p n n shape
  push (.accumulate input acc false)
  push (.activate acc output .relu)
  define n output shape false

/- Lower what a node computes. -/
def compute
    (p : Plan ν)
    (n : ν) : Lower ν Unit := do
  match p.network.op n, p.network.operands n with
  | .input shape, _ => input p n shape
  | .constant shape, _ => constant p n shape
  | .matMul, [x, w] => matMul p n x w none
  | .matMul, [x, w, b] => matMul p n x w (some b)
  | .matMul, operands => malformed p n (.matMulArity operands.length)
  | .add, [a, b] => add p n a b
  | .add, _ => checkArity p n 2
  | .relu, [a] =>
      if ((← get).value? n).isNone then relu p n a
  | .relu, _ =>
      if ((← get).value? n).isNone then checkArity p n 1

/- Lower a node and store it if it is requested. -/
def node
    (p : Plan ν)
    (n : ν) : Lower ν Unit := do
  compute p n
  finish p n

end Lower

------------------------------------------------------------
-- Programs
------------------------------------------------------------

/- Lower nodes in the given order for named outputs. -/
def lowerNodes
    (net : Network ν)
    (outputs : List String)
    (nodes : List ν)
    (bench : Workbench) :
    Except CompileError (List Operation × Workbench) :=
  match Plan.ofNodes net outputs nodes with
  | .error e => .error (.graph e)
  | .ok p =>
      match (nodes.forM (Lower.node p)) (Lowering.start bench) with
      | .error e _ => .error e
      | .ok _ s => .ok (s.program, s.bench)

end Systolic
