import Systolic.Graph.Basic

/-
  This file defines networks, which are graphs seen through the
  questions that a compiler asks, and the order in which the
  nodes of a network are computed. The order is depth-first from
  the outputs, operands before the node that uses them. It is
  found by a loop with a stack of open nodes, which marks the
  nodes that it meets.

  Key definitions include:
    * `Network`
    * `Walk`
    * `Network.step`
    * `Network.run`
    * `Network.order`
    * `Graph.network`

  Key theorems include:
    * `Network.work_lt_of_turn`
-/

namespace Systolic

------------------------------------------------------------
-- Networks
------------------------------------------------------------

/- A finite graph over nodes of any type. -/
structure Network (ν : Type) where
  nodes : List ν
  find? : String → Option ν
  name : ν → String
  op : ν → NodeOp
  operands : ν → List ν

namespace Network

variable {ν : Type}

/- Names and operands lead to nodes of the network. -/
structure WellFormed (net : Network ν) : Prop where
  find?_mem : ∀ name, ∀ n ∈ net.find? name, n ∈ net.nodes
  operands_mem : ∀ n ∈ net.nodes, ∀ m ∈ net.operands n, m ∈ net.nodes

/- The nodes of names, or the first name without one. -/
def roots
    (net : Network ν) : List String → Except GraphError (List ν)
| [] => .ok []
| name :: names =>
    match net.find? name with
    | none => .error (.unknownOutput name)
    | some n =>
        match net.roots names with
        | .error e => .error e
        | .ok ns => .ok (n :: ns)

end Network

------------------------------------------------------------
-- Depth-First Search
------------------------------------------------------------

/- A node that was met is open, or it is finished. -/
inductive Mark where
| active
| done
deriving DecidableEq, Repr

/- An open node, its operands, and the place of the next of them. -/
structure Frame (ν : Type) where
  node : ν
  inputs : List ν
  next : Nat

/-
  A search in progress: the marks of the nodes that it has met,
  newest first, the finished nodes in their order, and the open
  nodes, each one above the node that led to it.
-/
structure Walk (ν : Type) where
  marks : List (ν × Mark)
  order : List ν
  stack : List (Frame ν)

namespace Walk

variable {ν : Type} [DecidableEq ν]

/- A search that has met no node. -/
def start : Walk ν :=
  { marks := [], order := [], stack := [] }

/- The newest mark of a node. -/
def mark?
    (w : Walk ν)
    (n : ν) : Option Mark :=
  w.marks.lookup n

theorem mark?_cons
    {w w' : Walk ν}
    {n : ν}
    {mark : Mark}
    (hMarks : w'.marks = (n, mark) :: w.marks)
    (k : ν) :
    w'.mark? k = if k = n then some mark else w.mark? k := by
  unfold mark?
  rw [hMarks, List.lookup_cons]
  by_cases hSame : k = n
  · rw [if_pos hSame, hSame, beq_self_eq_true]
  · rw [if_neg hSame, beq_false_of_ne hSame]

/- Go past the next operand of the last node. -/
def advance
    (w : Walk ν)
    (f : Frame ν)
    (frames : List (Frame ν)) : Walk ν :=
  { w with stack := { f with next := f.next + 1 } :: frames }

/- Close the last node, and append it to the finished ones. -/
def finish
    (w : Walk ν)
    (n : ν)
    (frames : List (Frame ν)) : Walk ν :=
  { marks := (n, .done) :: w.marks
    order := w.order ++ [n]
    stack := frames }

end Walk

namespace Network

variable {ν : Type} [DecidableEq ν]

/- Open a node. -/
def enter
    (net : Network ν)
    (w : Walk ν)
    (n : ν) : Walk ν :=
  { w with
    marks := (n, .active) :: w.marks
    stack := { node := n, inputs := net.operands n, next := 0 } :: w.stack }

/-
  One turn of a search, unless no node is open. The next operand
  of the last node is passed over if it is finished, closes a
  cycle if it is open, and is opened if it is new. A node with
  no operand left is finished. Only nodes of the network are
  opened, so a search comes to an end.
-/
def step
    (net : Network ν)
    (w : Walk ν) : Option (Except GraphError (Walk ν)) :=
  match w.stack with
  | [] => none
  | f :: frames =>
      match f.inputs[f.next]? with
      | none => some (.ok (w.finish f.node frames))
      | some child =>
          match w.mark? child with
          | some .done => some (.ok (w.advance f frames))
          | some .active => some (.error (.cycle (net.name child)))
          | none =>
              if child ∈ net.nodes then
                some (.ok (net.enter (w.advance f frames) child))
              else
                some (.error
                  (.malformed (net.name f.node)
                    (.unknownOperand (net.name child))))

/- What one turn of a search does if it does not fail. -/
inductive Turn
    (net : Network ν)
    (w : Walk ν) : Walk ν → Prop
| finish {f : Frame ν} {frames : List (Frame ν)}
    (hStack : w.stack = f :: frames)
    (hLast : f.inputs[f.next]? = none) :
    Turn net w (w.finish f.node frames)
| skip {f : Frame ν} {frames : List (Frame ν)} {child : ν}
    (hStack : w.stack = f :: frames)
    (hChild : f.inputs[f.next]? = some child)
    (hDone : w.mark? child = some .done) :
    Turn net w (w.advance f frames)
| enter {f : Frame ν} {frames : List (Frame ν)} {child : ν}
    (hStack : w.stack = f :: frames)
    (hChild : f.inputs[f.next]? = some child)
    (hNew : w.mark? child = none)
    (hNode : child ∈ net.nodes) :
    Turn net w (net.enter (w.advance f frames) child)

theorem turn_of_step
    {net : Network ν}
    {w w' : Walk ν}
    (hStep : net.step w = some (.ok w')) :
    net.Turn w w' := by
  unfold step at hStep
  split at hStep
  case h_1 => cases hStep
  case h_2 f frames hStack =>
    split at hStep
    case h_1 hLast =>
      cases hStep
      exact .finish hStack hLast
    case h_2 child hChild =>
      split at hStep
      case h_1 hDone =>
        cases hStep
        exact .skip hStack hChild hDone
      case h_2 => cases hStep
      case h_3 hNew =>
        split at hStep
        case isFalse => cases hStep
        case isTrue hNode =>
          cases hStep
          exact .enter hStack hChild hNew hNode

/- Sums start from the literal zero. -/
attribute [local instance (high)] Zero.ofOfNat0

/- The turns that it takes to open the nodes that are not met yet. -/
def unmetWork
    (net : Network ν)
    (w : Walk ν) : Nat :=
  ((net.nodes.filter (fun n => (w.mark? n).isNone)).map
    (fun n => (net.operands n).length + 2)).sum

/- A bound on the turns that a search still takes. -/
def work
    (net : Network ν)
    (w : Walk ν) : Nat :=
  net.unmetWork w +
    (w.stack.map (fun f => f.inputs.length - f.next + 1)).sum

/- A node of the network that is met for the first time is left out. -/
theorem unmetWork_cons
    (net : Network ν)
    {w w' : Walk ν}
    {n : ν}
    {mark : Mark}
    (hMarks : w'.marks = (n, mark) :: w.marks) :
    net.unmetWork w' +
        (if n ∈ net.nodes ∧ w.mark? n = none then
          (net.operands n).length + 2 else 0) ≤
      net.unmetWork w := by
  unfold unmetWork
  induction net.nodes with
  | nil => simp
  | cons k nodes ih =>
      have hMark := Walk.mark?_cons hMarks k
      by_cases hSame : k = n
      · subst hSame
        rw [if_pos rfl] at hMark
        cases hOld : w.mark? k with
        | none =>
            simp [hMark, hOld] at ih ⊢
            split at ih <;> omega
        | some old =>
            simp [hMark, hOld] at ih ⊢
            exact ih
      · rw [if_neg hSame] at hMark
        cases hOld : w.mark? k with
        | none =>
            simp [hMark, hOld, Ne.symm hSame] at ih ⊢
            omega
        | some old =>
            simp [hMark, hOld, Ne.symm hSame] at ih ⊢
            exact ih

/- Every turn uses some of the work up. -/
theorem work_lt_of_turn
    {net : Network ν}
    {w w' : Walk ν}
    (hTurn : net.Turn w w') :
    net.work w' < net.work w := by
  unfold work
  cases hTurn with
  | @finish f frames hStack hLast =>
      have hMarks :
          (w.finish f.node frames).marks = (f.node, .done) :: w.marks := rfl
      have hUnmet := net.unmetWork_cons hMarks
      rw [hStack]
      simp only [Walk.finish, List.map_cons, List.sum_cons] at hUnmet ⊢
      omega
  | @skip f frames child hStack hChild hDone =>
      have hNext := (List.getElem?_eq_some_iff.mp hChild).1
      have hUnmet :
          net.unmetWork (w.advance f frames) = net.unmetWork w := rfl
      rw [hUnmet, hStack]
      simp only [Walk.advance, List.map_cons, List.sum_cons]
      omega
  | @enter f frames child hStack hChild hNew hNode =>
      have hNext := (List.getElem?_eq_some_iff.mp hChild).1
      have hMarks :
          (net.enter (w.advance f frames) child).marks =
            (child, .active) :: w.marks := rfl
      have hUnmet := net.unmetWork_cons hMarks
      rw [if_pos ⟨hNode, hNew⟩] at hUnmet
      rw [hStack]
      simp only [enter, Walk.advance, List.map_cons, List.sum_cons]
        at hUnmet ⊢
      omega

/- Take turns until no node is open. -/
def run
    (net : Network ν)
    (w : Walk ν) : Except GraphError (Walk ν) :=
  match hStep : net.step w with
  | none => .ok w
  | some (.error e) => .error e
  | some (.ok w') =>
      have := work_lt_of_turn (turn_of_step hStep)
      net.run w'
termination_by net.work w

/- Search from one node after another, but not from those met before. -/
def search
    (net : Network ν) : List ν → Walk ν → Except GraphError (Walk ν)
| [], w => .ok w
| n :: ns, w =>
    if (w.mark? n).isSome then net.search ns w
    else
      match net.run (net.enter w n) with
      | .error e => .error e
      | .ok w => net.search ns w

/- All nodes that the outputs need, operands first. -/
def order
    (net : Network ν)
    (outputs : List String) : Except GraphError (List ν) :=
  match net.roots outputs with
  | .error e => .error e
  | .ok ns =>
      match net.search ns .start with
      | .error e => .error e
      | .ok w => .ok w.order

end Network

------------------------------------------------------------
-- Graphs as Networks
------------------------------------------------------------

namespace Graph

/- A graph as a network over the places of its nodes. -/
def network (g : Graph) : Network Nat :=
  let nodes := g.nodes.toArray
  { nodes := List.range g.nodes.length
    find? := g.lookup?
    name := fun i =>
      match nodes[i]? with
      | some n => n.name
      | none => ""
    op := fun i =>
      match nodes[i]? with
      | some n => n.op
      | none => .input []
    operands := fun i =>
      match nodes[i]? with
      | some n => n.operands
      | none => [] }

end Graph

end Systolic
