import Mathlib.Data.Set.Function
import Systolic.Proofs.Graph.Needed

/-
  This file proves that the computation order of a network does
  not depend on how its nodes are numbered, nor on nodes that the
  outputs do not need.

  Key definitions include:
    * `Network.Renumbers`

  Key theorems include:
    * `Network.Renumbers.of_injOn`
    * `Network.Renumbers.roots_map`
    * `Network.Renumbers.depthFirst_map`
    * `Network.Renumbers.order_map`
-/

namespace Systolic

namespace Network

variable {ν μ : Type}

/- Needed nodes depend on which names are requested only. -/
theorem Needed.mono
    {net : Network ν}
    {outputs outputs' : List String}
    {n : ν}
    (hNames : ∀ name ∈ outputs, name ∈ outputs')
    (hNeeded : net.Needed outputs n) :
    net.Needed outputs' n := by
  induction hNeeded with
  | output hName hFind => exact .output (hNames _ hName) hFind
  | operand _ hOperand ih => exact .operand ih hOperand

------------------------------------------------------------
-- Renumbered Networks
------------------------------------------------------------

/-
  A bijection between the nodes that outputs need in two networks
  that keeps names, operations, operands and what the names of
  the outputs stand for.
-/
structure Renumbers
    (F : Network ν)
    (G : Network μ)
    (outputs : List String)
    (φ : ν → μ) : Prop where
  bijOn :
    Set.BijOn φ { n | F.Needed outputs n } { n | G.Needed outputs n }
  find?_map :
    ∀ name ∈ outputs, G.find? name = (F.find? name).map φ
  name_eq : ∀ n, F.Needed outputs n → G.name (φ n) = F.name n
  op_eq : ∀ n, F.Needed outputs n → G.op (φ n) = F.op n
  operands_map :
    ∀ n, F.Needed outputs n → G.operands (φ n) = (F.operands n).map φ

variable {F : Network ν} {G : Network μ} {outputs : List String} {φ : ν → μ}

/- Every needed node has a number, as outputs and operands have one. -/
theorem Renumbers.of_injOn
    (hInj : Set.InjOn φ { n | F.Needed outputs n })
    (hFind : ∀ name ∈ outputs, G.find? name = (F.find? name).map φ)
    (hName : ∀ n, F.Needed outputs n → G.name (φ n) = F.name n)
    (hOp : ∀ n, F.Needed outputs n → G.op (φ n) = F.op n)
    (hOperands :
      ∀ n, F.Needed outputs n →
        G.operands (φ n) = (F.operands n).map φ) :
    F.Renumbers G outputs φ := by
  refine ⟨⟨?_, hInj, ?_⟩, hFind, hName, hOp, hOperands⟩
  · intro n hNeeded
    induction hNeeded with
    | output hMem hFound =>
        refine .output hMem ?_
        rw [hFind _ hMem, hFound, Option.map_some]
    | operand hNeeded hOperand ih =>
        refine .operand ih ?_
        rw [hOperands _ hNeeded]
        exact List.mem_map_of_mem hOperand
  · intro k hNeeded
    induction hNeeded with
    | output hMem hFound =>
        rw [hFind _ hMem] at hFound
        rcases Option.map_eq_some_iff.mp hFound with ⟨n, hN, rfl⟩
        exact ⟨n, .output hMem hN, rfl⟩
    | operand _ hOperand ih =>
        rcases ih with ⟨n, hN, rfl⟩
        rw [hOperands n hN] at hOperand
        rcases List.mem_map.mp hOperand with ⟨m, hM, rfl⟩
        exact ⟨m, .operand hN hM, rfl⟩

namespace Renumbers

/- A name may be requested more than once. -/
theorem of_mem_iff
    {outputs' : List String}
    (hRenumbers : F.Renumbers G outputs φ)
    (hNames : ∀ name, name ∈ outputs' ↔ name ∈ outputs) :
    F.Renumbers G outputs' φ := by
  have hNeeded : ∀ n, F.Needed outputs' n → F.Needed outputs n :=
    fun n => Needed.mono (fun name => (hNames name).mp)
  refine of_injOn ?_ ?_ ?_ ?_ ?_
  · exact hRenumbers.bijOn.injOn.mono hNeeded
  · exact fun name hMem => hRenumbers.find?_map name ((hNames name).mp hMem)
  · exact fun n hN => hRenumbers.name_eq n (hNeeded n hN)
  · exact fun n hN => hRenumbers.op_eq n (hNeeded n hN)
  · exact fun n hN => hRenumbers.operands_map n (hNeeded n hN)

/- The nodes of the outputs are renumbered. -/
theorem roots_map
    {names : List String}
    (hRenumbers : F.Renumbers G outputs φ)
    (hNames : ∀ name ∈ names, name ∈ outputs) :
    G.roots names = (F.roots names).map (List.map φ) := by
  induction names with
  | nil => rfl
  | cons name names ih =>
      have hRest := ih (fun k hMem => hNames k (List.mem_cons_of_mem _ hMem))
      have hFirst := hRenumbers.find?_map name
        (hNames name List.mem_cons_self)
      unfold roots
      rw [hFirst, hRest]
      cases F.find? name with
      | none => rfl
      | some n =>
          cases F.roots names with
          | error e => rfl
          | ok ns => rfl

/- Membership in a list of needed nodes does not change. -/
theorem mem_map_iff
    {ns : List ν}
    {n : ν}
    (hRenumbers : F.Renumbers G outputs φ)
    (hNodes : ∀ k ∈ ns, F.Needed outputs k)
    (hNeeded : F.Needed outputs n) :
    φ n ∈ ns.map φ ↔ n ∈ ns := by
  constructor
  · intro hMem
    rcases List.mem_map.mp hMem with ⟨k, hK, hSame⟩
    have hEq := hRenumbers.bijOn.injOn (hNodes k hK) hNeeded hSame
    rw [← hEq]
    exact hK
  · exact List.mem_map_of_mem

------------------------------------------------------------
-- Computation Order
------------------------------------------------------------

/- The search of a renumbered network is the renumbered search. -/
theorem depthFirst_map
    {path finished ns : List ν}
    {result : Except GraphError (List ν)}
    (hRenumbers : F.Renumbers G outputs φ)
    (hSearch : F.DepthFirst path finished ns result)
    (hPath : ∀ k ∈ path, F.Needed outputs k)
    (hFinished : ∀ k ∈ finished, F.Needed outputs k)
    (hNodes : ∀ n ∈ ns, F.Needed outputs n) :
    G.DepthFirst (path.map φ) (finished.map φ) (ns.map φ)
      (result.map (List.map φ)) := by
  induction hSearch with
  | done => exact .done
  | known hKnown _ ih =>
      rcases List.forall_mem_cons.mp hNodes with ⟨-, hRest⟩
      exact .known (List.mem_map_of_mem hKnown) (ih hPath hFinished hRest)
  | cycle hNew hOn =>
      rcases List.forall_mem_cons.mp hNodes with ⟨hNode, -⟩
      rw [Except.map, ← hRenumbers.name_eq _ hNode]
      exact .cycle (mt (hRenumbers.mem_map_iff hFinished hNode).mp hNew)
        (List.mem_map_of_mem hOn)
  | fail hNew hOff _ ih =>
      rcases List.forall_mem_cons.mp hNodes with ⟨hNode, -⟩
      refine .fail (mt (hRenumbers.mem_map_iff hFinished hNode).mp hNew)
        (mt (hRenumbers.mem_map_iff hPath hNode).mp hOff) ?_
      rw [hRenumbers.operands_map _ hNode]
      exact ih (List.forall_mem_cons.mpr ⟨hNode, hPath⟩) hFinished
        (fun _ hOperand => .operand hNode hOperand)
  | finish hNew hOff hOperands _ ihOperands ihRest =>
      rcases List.forall_mem_cons.mp hNodes with ⟨hNode, hRest⟩
      have hNeeded :=
        hOperands.closed (fun _ hN _ hOperand => .operand hN hOperand)
          hFinished (fun _ hOperand => .operand hNode hOperand)
      have hBelow :=
        ihOperands (List.forall_mem_cons.mpr ⟨hNode, hPath⟩) hFinished
          (fun _ hOperand => .operand hNode hOperand)
      have hAfter :=
        ihRest hPath
          (List.forall_mem_append.mpr
            ⟨hNeeded, List.forall_mem_singleton.mpr hNode⟩) hRest
      rw [List.map_append] at hAfter
      refine .finish (mt (hRenumbers.mem_map_iff hFinished hNode).mp hNew)
        (mt (hRenumbers.mem_map_iff hPath hNode).mp hOff) ?_ hAfter
      rw [hRenumbers.operands_map _ hNode]
      exact hBelow

variable [DecidableEq ν] [DecidableEq μ]

/- The computation order is renumbered. -/
theorem order_map
    (hRenumbers : F.Renumbers G outputs φ)
    (hF : F.WellFormed)
    (hG : G.WellFormed) :
    G.order outputs = (F.order outputs).map (List.map φ) := by
  have hNumbered := hRenumbers.roots_map (fun _ hMem => hMem)
  cases hRoots : F.roots outputs with
  | error e =>
      rw [hRoots] at hNumbered
      unfold order
      rw [hNumbered, hRoots]
      rfl
  | ok roots =>
      rw [hRoots] at hNumbered
      have hSearch :=
        hRenumbers.depthFirst_map (order_depthFirst hF hRoots) (by simp)
          (by simp) (needed_of_mem_roots hRoots)
      exact hSearch.unique (order_depthFirst hG hNumbered)

end Renumbers

end Network

end Systolic
