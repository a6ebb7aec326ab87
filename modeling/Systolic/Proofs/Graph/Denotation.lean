import Systolic.Proofs.Program.Semantics
import Systolic.Graph.Network

/-
  This file defines what the nodes of a network denote, for any
  values of its inputs and constants and any meaning of products,
  sums and rectifiers. Nothing is said about shapes here, nor
  about the order in which nodes are computed.

  Key definitions include:
    * `Interpretation`
    * `Interpretation.semantics`
    * `Network.Denotes`
    * `residualBlock`

  Key theorems include:
    * `Network.Denotes.unique`
-/

namespace Systolic

variable {ν V : Type}

/- The functions that nodes apply and the values of the sources. -/
structure Interpretation (ν V : Type) where
  matMul : V → V → Option V → V
  add : V → V → V
  relu : V → V
  source : ν → V

/- All values are the same. -/
def Interpretation.unit : Interpretation ν Unit where
  matMul := fun _ _ _ => ()
  add := fun _ _ => ()
  relu := fun _ => ()
  source := fun _ => ()

/- The functions of the operations that nodes become. -/
def Interpretation.semantics
    (I : Interpretation ν V) : Semantics V where
  product := fun _ => I.matMul
  sum := fun _ => I.add
  activate := fun activation _ =>
    match activation with
    | .identity => id
    | .relu => I.relu

/- A node is an input or a constant. -/
def NodeOp.IsSource : NodeOp → Prop
| .input _ => True
| .constant _ => True
| .matMul => False
| .add => False
| .relu => False

namespace Network

/- The value that a node of a network has. -/
inductive Denotes
    (net : Network ν)
    (I : Interpretation ν V) : ν → V → Prop
| source {n : ν}
    (hOp : (net.op n).IsSource) :
    Denotes net I n (I.source n)
| product {n x w : ν} {a b : V}
    (hOp : net.op n = .matMul)
    (hOperands : net.operands n = [x, w])
    (hX : Denotes net I x a)
    (hW : Denotes net I w b) :
    Denotes net I n (I.matMul a b none)
| biased {n x w bias : ν} {a b c : V}
    (hOp : net.op n = .matMul)
    (hOperands : net.operands n = [x, w, bias])
    (hX : Denotes net I x a)
    (hW : Denotes net I w b)
    (hBias : Denotes net I bias c) :
    Denotes net I n (I.matMul a b (some c))
| sum {n x y : ν} {a b : V}
    (hOp : net.op n = .add)
    (hOperands : net.operands n = [x, y])
    (hX : Denotes net I x a)
    (hY : Denotes net I y b) :
    Denotes net I n (I.add a b)
| rectifier {n x : ν} {a : V}
    (hOp : net.op n = .relu)
    (hOperands : net.operands n = [x])
    (hX : Denotes net I x a) :
    Denotes net I n (I.relu a)

/- A node has at most one value. -/
theorem Denotes.unique
    {net : Network ν}
    {I : Interpretation ν V}
    {n : ν}
    {a b : V}
    (hA : net.Denotes I n a)
    (hB : net.Denotes I n b) :
    a = b := by
  induction hA generalizing b with
  | source hOp =>
      cases hB with
      | source => rfl
      | product hOp' => simp [hOp', NodeOp.IsSource] at hOp
      | biased hOp' => simp [hOp', NodeOp.IsSource] at hOp
      | sum hOp' => simp [hOp', NodeOp.IsSource] at hOp
      | rectifier hOp' => simp [hOp', NodeOp.IsSource] at hOp
  | product hOp hOperands _ _ ihX ihW =>
      cases hB with
      | source hOp' => simp [hOp, NodeOp.IsSource] at hOp'
      | product _ hOperands' hX hW =>
          cases hOperands.symm.trans hOperands'
          rw [ihX hX, ihW hW]
      | biased _ hOperands' => cases hOperands.symm.trans hOperands'
      | sum hOp' => cases hOp.symm.trans hOp'
      | rectifier hOp' => cases hOp.symm.trans hOp'
  | biased hOp hOperands _ _ _ ihX ihW ihBias =>
      cases hB with
      | source hOp' => simp [hOp, NodeOp.IsSource] at hOp'
      | product _ hOperands' => cases hOperands.symm.trans hOperands'
      | biased _ hOperands' hX hW hBias =>
          cases hOperands.symm.trans hOperands'
          rw [ihX hX, ihW hW, ihBias hBias]
      | sum hOp' => cases hOp.symm.trans hOp'
      | rectifier hOp' => cases hOp.symm.trans hOp'
  | sum hOp hOperands _ _ ihX ihY =>
      cases hB with
      | source hOp' => simp [hOp, NodeOp.IsSource] at hOp'
      | product hOp' => cases hOp.symm.trans hOp'
      | biased hOp' => cases hOp.symm.trans hOp'
      | sum _ hOperands' hX hY =>
          cases hOperands.symm.trans hOperands'
          rw [ihX hX, ihY hY]
      | rectifier hOp' => cases hOp.symm.trans hOp'
  | rectifier hOp hOperands _ ihX =>
      cases hB with
      | source hOp' => simp [hOp, NodeOp.IsSource] at hOp'
      | product hOp' => cases hOp.symm.trans hOp'
      | biased hOp' => cases hOp.symm.trans hOp'
      | sum hOp' => cases hOp.symm.trans hOp'
      | rectifier _ hOperands' hX =>
          cases hOperands.symm.trans hOperands'
          rw [ihX hX]

end Network

/- A rectified product that is added to its input. -/
def residualBlock : Network (Fin 5) where
  nodes := [0, 1, 2, 3, 4]
  find? := fun name =>
    if name = "rectified" then some 3
    else if name = "sum" then some 4
    else none
  name := fun n =>
    ["input", "weights", "product", "rectified", "sum"].getD n ""
  op := fun n =>
    [NodeOp.input [2, 2], .constant [2, 2], .matMul, .relu, .add].getD n
      .add
  operands := fun n => [[], [], [0, 1], [2], [3, 0]].getD n []

/- An empty workbench for the block. -/
def residualBench : Workbench :=
  .start .standard { slot0 := 11, slot1 := 20, slot2 := 11, wordBits := 56 }

/- Integers as the values of the block. -/
def residualBlockValues : Interpretation (Fin 5) Int where
  matMul := fun a b bias => a * b + bias.getD 0
  add := fun a b => a + b
  relu := fun a => max 0 a
  source := fun n => if n = 0 then 3 else -2

/- The sum of two inputs that are rectified first. -/
def rectifiedSum : Network (Fin 5) where
  nodes := [0, 1, 2, 3, 4]
  find? := fun name => if name = "sum" then some 4 else none
  name := fun n =>
    ["left", "right", "rectified left", "rectified right", "sum"].getD n ""
  op := fun n =>
    [NodeOp.input [1, 2], .input [1, 2], .relu, .relu, .add].getD n .add
  operands := fun n => [[], [], [0], [1], [2, 3]].getD n []

/- A machine with room for one vector in each of its memories. -/
def oneVector : Machine :=
  { Machine.standard with
    arraySize := 2, localDepth := 1, accumulatorDepth := 1 }

end Systolic
