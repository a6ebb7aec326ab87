import Mathlib.Data.List.Basic
import Systolic.Proofs.Graph.Order

/-
  This file proves that the computation order of a network lists
  exactly the nodes that the outputs need.

  Key definitions include:
    * `Network.Needed`

  Key theorems include:
    * `Network.DepthFirst.closed`
    * `Network.order_depthFirst`
    * `Network.mem_order_iff`
-/

namespace Systolic

namespace Network

variable {ν : Type} {net : Network ν} {outputs : List String}
variable {ns roots : List ν}

/- A named output, or an operand of a node that is needed. -/
inductive Needed
    (net : Network ν)
    (outputs : List String) : ν → Prop
| output {name : String} {n : ν}
    (hName : name ∈ outputs)
    (hFind : net.find? name = some n) :
    Needed net outputs n
| operand {n m : ν}
    (hNeeded : Needed net outputs n)
    (hOperand : m ∈ net.operands n) :
    Needed net outputs m

/- What is needed is a node of the network. -/
theorem Needed.mem_nodes
    {n : ν}
    (hNet : net.WellFormed)
    (hNeeded : net.Needed outputs n) :
    n ∈ net.nodes := by
  induction hNeeded with
  | output _ hFind => exact hNet.find?_mem _ _ hFind
  | operand _ hOperand ih => exact hNet.operands_mem _ ih _ hOperand

/- The roots are the nodes of the names, one for each. -/
theorem roots_eq_ok
    (hRoots : net.roots outputs = .ok ns) :
    ∀ n, n ∈ ns ↔ ∃ name ∈ outputs, net.find? name = some n := by
  induction outputs generalizing ns with
  | nil =>
      cases hRoots
      simp
  | cons name names ih =>
      unfold roots at hRoots
      split at hRoots
      case h_1 => cases hRoots
      case h_2 k hFind =>
        split at hRoots
        case h_1 => cases hRoots
        case h_2 ks hRest =>
          cases hRoots
          intro n
          rw [List.mem_cons, ih hRest, List.exists_mem_cons_iff, hFind,
            Option.some.injEq, eq_comm]

/- A node is a root or an operand of a needed node. -/
theorem Needed.cases_roots
    {n : ν}
    (hRoots : net.roots outputs = .ok roots)
    (hNeeded : net.Needed outputs n) :
    n ∈ roots ∨ ∃ m, net.Needed outputs m ∧ n ∈ net.operands m := by
  cases hNeeded with
  | output hName hFind =>
      exact .inl ((roots_eq_ok hRoots n).mpr ⟨_, hName, hFind⟩)
  | operand hNeeded hOperand => exact .inr ⟨_, hNeeded, hOperand⟩

/- What holds of nodes and passes to operands holds of all they need. -/
theorem DepthFirst.closed
    {P : ν → Prop}
    {path finished finished' : List ν}
    (hSearch : net.DepthFirst path finished ns (.ok finished'))
    (hClosed : ∀ n, P n → ∀ m ∈ net.operands n, P m)
    (hFinished : ∀ k ∈ finished, P k)
    (hNodes : ∀ n ∈ ns, P n) :
    ∀ k ∈ finished', P k := by
  generalize hResult : Except.ok finished' = result at hSearch
  induction hSearch generalizing finished' with
  | done =>
      cases hResult
      exact hFinished
  | known _ _ ih =>
      exact ih hFinished (List.forall_mem_cons.mp hNodes).2 hResult
  | cycle => cases hResult
  | fail => cases hResult
  | finish _ _ _ _ ihOperands ihRest =>
      rcases List.forall_mem_cons.mp hNodes with ⟨hNode, hRest⟩
      have hOperands := ihOperands hFinished (hClosed _ hNode) rfl
      refine ihRest ?_ hRest hResult
      exact List.forall_mem_append.mpr
        ⟨hOperands, List.forall_mem_singleton.mpr hNode⟩

/- The roots of outputs are needed. -/
theorem needed_of_mem_roots
    (hRoots : net.roots outputs = .ok roots) :
    ∀ n ∈ roots, net.Needed outputs n := by
  intro n hMem
  rcases (roots_eq_ok hRoots n).mp hMem with ⟨name, hName, hFind⟩
  exact .output hName hFind

variable [DecidableEq ν]

/- The order is that of the search from the outputs, or its error. -/
theorem order_depthFirst
    (hNet : net.WellFormed)
    (hRoots : net.roots outputs = .ok roots) :
    net.DepthFirst [] [] roots (net.order outputs) := by
  have hNodes : ∀ n ∈ roots, n ∈ net.nodes :=
    fun n hMem => (needed_of_mem_roots hRoots n hMem).mem_nodes hNet
  have hSearch := net.search_depthFirst roots Walk.marked_start rfl
  unfold order
  rw [hRoots]
  dsimp only
  cases hEnd : net.search roots .start with
  | error e =>
      rw [hEnd] at hSearch
      exact hSearch hNet hNodes
  | ok w =>
      rw [hEnd] at hSearch
      exact hSearch

/- The computation order holds exactly what the outputs need. -/
theorem mem_order_iff
    (hOrder : net.order outputs = .ok ns)
    {n : ν} :
    n ∈ ns ↔ net.Needed outputs n := by
  rcases depthFirst_of_order hOrder with ⟨roots, hRoots, hSearch⟩
  have hFinishes := hSearch.finishes .nil
  constructor
  · intro hMem
    exact hSearch.closed
      (fun _ hNeeded _ hOperand => .operand hNeeded hOperand) (by simp)
      (needed_of_mem_roots hRoots) n hMem
  · intro hNeeded
    induction hNeeded with
    | output hName hFind =>
        exact hFinishes.wanted_mem _
          ((roots_eq_ok hRoots _).mpr ⟨_, hName, hFind⟩)
    | operand _ hOperand ih => exact hFinishes.ordered.closed ih hOperand

end Network

end Systolic
