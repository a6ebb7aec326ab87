import Systolic.Graph.Fault

/-
  This file defines graphs of tensor operations, the names that
  their values may have, the text of a graph, and the building
  of a graph node by node. A node refers to its operands by
  their places in the graph. A refused node also leaves a draft,
  so adding a node is an action on it.

  Key definitions include:
    * `NodeOp`
    * `Node`
    * `Graph`
    * `IsValueName`
    * `Graph.text`
    * `Draft.addNode`
-/

namespace Systolic

------------------------------------------------------------
-- Nodes
------------------------------------------------------------

/- What a node computes. -/
inductive NodeOp where
| input (shape : List Nat)
| constant (shape : List Nat)
| matMul
| add
| relu
deriving DecidableEq, Repr

namespace NodeOp

/- The name of an operation. -/
def name : NodeOp → String
| input _ => "input"
| constant _ => "const"
| matMul => "matmul"
| add => "add"
| relu => "relu"

/- The shape that a node declares. -/
def shape? : NodeOp → Option (List Nat)
| input shape => some shape
| constant shape => some shape
| _ => none

/- An operation is a constant. -/
def IsConstant : NodeOp → Prop
| constant _ => True
| _ => False

instance (op : NodeOp) : Decidable op.IsConstant := by
  cases op <;> unfold IsConstant <;> infer_instance

end NodeOp

/- A named operation on other nodes. -/
structure Node where
  name : String
  op : NodeOp
  operands : List Nat
deriving DecidableEq, Repr

------------------------------------------------------------
-- Names
------------------------------------------------------------

/- A character that a name may start with. -/
def isNameStart (c : Char) : Bool :=
  c.isAlpha || c == '_'

/- A character that a name may hold. -/
def isNameChar (c : Char) : Bool :=
  c.isAlphanum || c == '_'

/- A name of a value: letters, digits and underscores, no digit first. -/
def IsValueName (name : String) : Prop :=
  name.toList.head?.any isNameStart = true ∧ name.toList.all isNameChar = true

instance (name : String) : Decidable (IsValueName name) := by
  unfold IsValueName
  infer_instance

------------------------------------------------------------
-- Graphs
------------------------------------------------------------

/- A list of nodes. -/
structure Graph where
  nodes : List Node
deriving DecidableEq, Repr

namespace Graph

/- A graph without nodes. -/
def empty : Graph :=
  { nodes := [] }

/- The place of the first node of a name. -/
def lookup?
    (g : Graph)
    (name : String) : Option Nat :=
  g.nodes.findIdx? (fun n => n.name = name)

/- The name of the node at a place. -/
def nameAt
    (g : Graph)
    (i : Nat) : String :=
  match g.nodes[i]? with
  | some n => n.name
  | none => ""

------------------------------------------------------------
-- Text
------------------------------------------------------------

/- What stands after the operation of a node. -/
def argumentText
    (g : Graph)
    (n : Node) : String :=
  match n.op.shape? with
  | some shape => " " ++ shapeText shape
  | none =>
      match n.operands with
      | [] => ""
      | is => " " ++ ", ".intercalate (is.map (fun i => "%" ++ g.nameAt i))

/- The line of a node. -/
def nodeText
    (g : Graph)
    (n : Node) : String :=
  "%" ++ n.name ++ " = " ++ n.op.name ++ g.argumentText n

/- The text of a graph, one line for each node. -/
def text (g : Graph) : String :=
  String.join (g.nodes.map (fun n => g.nodeText n ++ "\n"))

end Graph

------------------------------------------------------------
-- Drafts
------------------------------------------------------------

/- A graph that is being built, and where each name was put. -/
structure Draft where
  graph : Graph
  places : List (String × Nat)
deriving DecidableEq, Repr

namespace Draft

/- A draft without nodes. -/
def empty : Draft :=
  { graph := .empty, places := [] }

/- The place that a name was given last. -/
def place?
    (d : Draft)
    (name : String) : Option Nat :=
  d.places.lookup name

/- The places of named operands, or the first name without one. -/
def resolve
    (d : Draft) : List String → Except String (List Nat)
| [] => .ok []
| name :: names =>
    match d.place? name with
    | none => .error name
    | some i =>
        match d.resolve names with
        | .error missing => .error missing
        | .ok is => .ok (i :: is)

/- A draft with one more node. -/
def grow
    (d : Draft)
    (n : Node) : Draft :=
  { graph := { nodes := d.graph.nodes ++ [n] }
    places := (n.name, d.graph.nodes.length) :: d.places }

/- A change of a draft, which may be refused. -/
abbrev Building (α : Type) :=
  EStateM GraphError Draft α

/- Append a node, and answer its place. -/
def push (n : Node) : Building Nat := do
  let d ← get
  set (d.grow n)
  return d.graph.nodes.length

/- Append a node with a new name and operands of the draft. -/
def addNode
    (name : String)
    (op : NodeOp)
    (operands : List String) : Building Nat := do
  let d ← get
  if ¬ IsValueName name then throw (.malformed name .invalidName)
  else if (d.place? name).isSome then throw (.malformed name .definedTwice)
  else
    match d.resolve operands with
    | .error missing => throw (.malformed name (.unknownOperand missing))
    | .ok is => push { name, op, operands := is }

end Draft

end Systolic
