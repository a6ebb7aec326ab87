import Systolic.Proofs.Graph.Traversal

/-
  This file proves that the computation order of a network lists
  different nodes, each one after its operands, and that the
  requested outputs are among them.

  Key definitions include:
    * `Network.Ordered`

  Key theorems include:
    * `Network.Ordered.of_snoc`
    * `Network.Ordered.closed`
    * `Network.DepthFirst.finishes`
    * `Network.order_ordered`
-/

namespace Systolic

namespace Network

variable {ν : Type} {net : Network ν}
variable {n : ν} {path finished finished' ns : List ν}

------------------------------------------------------------
-- Ordered Lists
------------------------------------------------------------

/- Different nodes, each after its operands. -/
inductive Ordered (net : Network ν) : List ν → Prop
| nil : Ordered net []
| snoc {l : List ν} {n : ν}
    (hOrdered : Ordered net l)
    (hNew : n ∉ l)
    (hOperands : ∀ m ∈ net.operands n, m ∈ l) :
    Ordered net (l ++ [n])

/- The last node of an ordered list is new and after its operands. -/
theorem Ordered.of_snoc
    {l : List ν}
    (hOrdered : net.Ordered (l ++ [n])) :
    net.Ordered l ∧ n ∉ l ∧ ∀ m ∈ net.operands n, m ∈ l := by
  generalize hList : l ++ [n] = whole at hOrdered
  cases hOrdered with
  | nil => simp at hList
  | snoc hInit hNew hOperands =>
      rcases List.append_inj' hList rfl with ⟨rfl, hLast⟩
      cases hLast
      exact ⟨hInit, hNew, hOperands⟩

/- The operands of the nodes of an ordered list are in it. -/
theorem Ordered.closed
    {l : List ν}
    {m : ν}
    (hOrdered : net.Ordered l)
    (hMem : n ∈ l)
    (hOperand : m ∈ net.operands n) :
    m ∈ l := by
  induction hOrdered with
  | nil => cases hMem
  | snoc hInit hNew hOperands ih =>
      apply List.mem_append_left
      rcases List.mem_append.mp hMem with hMem | hLast
      · exact ih hMem
      · rcases List.mem_singleton.mp hLast with rfl
        exact hOperands m hOperand

------------------------------------------------------------
-- Computation Order
------------------------------------------------------------

/-
  A list of finished nodes has grown by ordered nodes outside
  the path, and holds given ones.
-/
structure Finishes
    (net : Network ν)
    (path finished wanted finished' : List ν) : Prop where
  ordered : net.Ordered finished'
  wanted_mem : ∀ n ∈ wanted, n ∈ finished'
  mono : ∀ n ∈ finished, n ∈ finished'
  new : ∀ n ∈ finished', n ∈ finished ∨ n ∉ path

theorem Finishes.trans
    {finished'' ms : List ν}
    (hFirst : net.Finishes path finished ns finished')
    (hRest : net.Finishes path finished' ms finished'') :
    net.Finishes path finished (ns ++ ms) finished'' := by
  refine ⟨hRest.ordered, ?_, ?_, ?_⟩
  · intro n hMem
    rcases List.mem_append.mp hMem with hMem | hMem
    · exact hRest.mono n (hFirst.wanted_mem n hMem)
    · exact hRest.wanted_mem n hMem
  · exact fun n hMem => hRest.mono n (hFirst.mono n hMem)
  · intro n hMem
    rcases hRest.new n hMem with hMiddle | hPath
    · exact hFirst.new n hMiddle
    · exact .inr hPath

/- A node is finished once its operands are. -/
theorem Finishes.snoc
    (hOperands :
      net.Finishes (n :: path) finished (net.operands n) finished')
    (hNew : n ∉ finished)
    (hPath : n ∉ path) :
    net.Finishes path finished [n] (finished' ++ [n]) := by
  have hFresh : n ∉ finished' := by
    intro hMem
    rcases hOperands.new n hMem with hDone | hOff
    · exact hNew hDone
    · exact hOff List.mem_cons_self
  refine ⟨.snoc hOperands.ordered hFresh hOperands.wanted_mem,
    by simp, ?_, ?_⟩
  · intro m hMem
    exact List.mem_append_left _ (hOperands.mono m hMem)
  · intro m hMem
    rcases List.mem_append.mp hMem with hMiddle | hLast
    · rcases hOperands.new m hMiddle with hDone | hOff
      · exact .inl hDone
      · exact .inr (fun h => hOff (List.mem_cons_of_mem _ h))
    · rcases List.mem_singleton.mp hLast with rfl
      exact .inr hPath

/- A search finishes its nodes, each after all that it needs. -/
theorem DepthFirst.finishes
    (hSearch : net.DepthFirst path finished ns (.ok finished'))
    (hOrdered : net.Ordered finished) :
    net.Finishes path finished ns finished' := by
  generalize hResult : Except.ok finished' = result at hSearch
  induction hSearch generalizing finished' with
  | done =>
      cases hResult
      exact ⟨hOrdered, by simp, fun _ h => h, fun _ h => .inl h⟩
  | known hKnown _ ih =>
      have hRest := ih hOrdered hResult
      refine ⟨hRest.ordered, ?_, hRest.mono, hRest.new⟩
      exact List.forall_mem_cons.mpr
        ⟨hRest.mono _ hKnown, hRest.wanted_mem⟩
  | cycle => cases hResult
  | fail => cases hResult
  | finish hNew hPath _ _ ihOperands ihRest =>
      have hFirst := (ihOperands hOrdered rfl).snoc hNew hPath
      exact hFirst.trans (ihRest hFirst.ordered hResult)

variable [DecidableEq ν]

/- The computation order is ordered and holds the outputs. -/
theorem order_ordered
    {outputs : List String}
    (hOrder : net.order outputs = .ok ns) :
    ∃ roots,
      net.roots outputs = .ok roots ∧
        net.Ordered ns ∧ ∀ n ∈ roots, n ∈ ns := by
  rcases depthFirst_of_order hOrder with ⟨roots, hRoots, hSearch⟩
  have hFinishes := hSearch.finishes .nil
  exact ⟨roots, hRoots, hFinishes.ordered, hFinishes.wanted_mem⟩

end Network

end Systolic
