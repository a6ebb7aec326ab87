import Mathlib.Data.List.Nodup
import Systolic.Proofs.Graph.Needed

/-
  This file proves that the computation order of a network is the
  answer of a recursive depth-first search, whatever the shape of
  the network: the first name without a node, a node on a cycle
  that the outputs need, or all nodes that they need, operands
  first.

  Key definitions include:
    * `Network.Uses`
    * `Network.OnCycle`

  Key theorems include:
    * `Network.Ordered.not_onCycle`
    * `Network.DepthFirst.cycle_of_error`
    * `Network.order_searches_needed`
-/

namespace Systolic

namespace Network

variable {ν : Type} {net : Network ν} {outputs : List String}
variable {n : ν} {l : List ν}

------------------------------------------------------------
-- Cycles
------------------------------------------------------------

/- A node has another one as an operand, directly or through others. -/
def Uses (net : Network ν) : ν → ν → Prop :=
  Relation.TransGen (fun n m => m ∈ net.operands n)

/- A node uses itself. -/
def OnCycle
    (net : Network ν)
    (n : ν) : Prop :=
  net.Uses n n

theorem Needed.uses
    {m : ν}
    (hNeeded : net.Needed outputs n)
    (hUses : net.Uses n m) :
    net.Needed outputs m := by
  induction hUses with
  | single hOperand => exact hNeeded.operand hOperand
  | tail _ hOperand ih => exact ih.operand hOperand

theorem Ordered.nodup
    (hOrdered : net.Ordered l) :
    l.Nodup := by
  induction hOrdered with
  | nil => exact List.nodup_nil
  | snoc _ hNew _ ih =>
      rw [← List.concat_eq_append]
      exact ih.concat hNew

theorem Ordered.mem_of_uses
    {m : ν}
    (hOrdered : net.Ordered l)
    (hMem : n ∈ l)
    (hUses : net.Uses n m) :
    m ∈ l := by
  induction hUses with
  | single hOperand => exact hOrdered.closed hMem hOperand
  | tail _ hOperand ih => exact hOrdered.closed ih hOperand

/- Nodes that come after their operands are on no cycle. -/
theorem Ordered.not_onCycle
    (hOrdered : net.Ordered l)
    (hMem : n ∈ l) :
    ¬ net.OnCycle n := by
  induction hOrdered with
  | nil => cases hMem
  | @snoc l k hInit hNew hOperands ih =>
      rcases List.mem_append.mp hMem with hMem | hLast
      · exact ih hMem
      · -- A cycle through the last node passes through earlier ones.
        rcases List.mem_singleton.mp hLast with rfl
        intro hCycle
        rcases Relation.TransGen.head'_iff.mp hCycle with
          ⟨m, hOperand, hBack⟩
        have hEarlier := hOperands m hOperand
        rcases Relation.reflTransGen_iff_eq_or_transGen.mp hBack with
          rfl | hUses
        · exact hNew hEarlier
        · exact hNew (hInit.mem_of_uses hEarlier hUses)

------------------------------------------------------------
-- Outputs
------------------------------------------------------------

/- The roots are the nodes of the names, in their order. -/
theorem roots_eq_ok_iff
    {ns : List ν} :
    net.roots outputs = .ok ns ↔
      List.Forall₂ (fun name n => net.find? name = some n) outputs ns := by
  induction outputs generalizing ns with
  | nil =>
      rw [List.forall₂_nil_left_iff, roots, Except.ok.injEq, eq_comm]
  | cons name names ih =>
      rw [List.forall₂_cons_left_iff, roots]
      cases hFind : net.find? name with
      | none => simp
      | some n =>
          cases hRest : net.roots names with
          | error e =>
              simp only [reduceCtorEq, false_iff]
              rintro ⟨m, ms, -, hAll, rfl⟩
              rw [← ih, hRest] at hAll
              cases hAll
          | ok ms =>
              simp only [Except.ok.injEq, Option.some.injEq]
              constructor
              · rintro rfl
                exact ⟨n, ms, rfl, ih.mp hRest, rfl⟩
              · rintro ⟨m, ms', rfl, hAll, rfl⟩
                rw [← ih, hRest] at hAll
                cases hAll
                rfl

/- Only a name without a node is refused, and the first one is told. -/
theorem roots_eq_error_iff
    {e : GraphError} :
    net.roots outputs = .error e ↔
      ∃ name, e = .unknownOutput name ∧
        outputs.find? (fun name => (net.find? name).isNone) = some name := by
  induction outputs with
  | nil => simp [roots]
  | cons name names ih =>
      rw [roots]
      cases hFind : net.find? name with
      | none => simp [hFind, eq_comm]
      | some n =>
          rw [List.find?_cons_of_neg (by simp [hFind]), ← ih]
          cases net.roots names <;> simp

------------------------------------------------------------
-- Depth-First Search
------------------------------------------------------------

namespace DepthFirst

variable {path finished ns : List ν}

/-
  The search fails only at a node on a cycle. The invariant is
  that the nodes of the path use all nodes that are searched.
-/
theorem cycle_of_error
    {e : GraphError}
    (hSearch : net.DepthFirst path finished ns (.error e))
    (hPath : ∀ p ∈ path, ∀ n ∈ ns, net.Uses p n) :
    ∃ m, e = .cycle (net.name m) ∧ net.OnCycle m ∧
      ∃ n ∈ ns, n = m ∨ net.Uses n m := by
  generalize hResult : Except.error e = result at hSearch
  induction hSearch with
  | done => cases hResult
  | known _ _ ih =>
      rcases ih (fun p hP n hN => hPath p hP n (List.mem_cons_of_mem _ hN))
          hResult with
        ⟨m, hError, hCycle, n, hMem, hReach⟩
      exact ⟨m, hError, hCycle, n, List.mem_cons_of_mem _ hMem, hReach⟩
  | @cycle _ _ _ n _ hOn =>
      cases hResult
      exact ⟨n, rfl, hPath n hOn n List.mem_cons_self,
        n, List.mem_cons_self, .inl rfl⟩
  | @fail path _ _ n _ _ _ _ ih =>
      have hOperands :
          ∀ p ∈ n :: path, ∀ m ∈ net.operands n, net.Uses p m := by
        intro p hP m hM
        rcases List.mem_cons.mp hP with rfl | hP
        · exact .single hM
        · exact (hPath p hP n List.mem_cons_self).tail hM
      rcases ih hOperands hResult with
        ⟨m, hError, hCycle, k, hMem, hReach⟩
      refine ⟨m, hError, hCycle, n, List.mem_cons_self, .inr ?_⟩
      rcases hReach with rfl | hUses
      · exact .single hMem
      · exact .head hMem hUses
  | finish _ _ _ _ _ ih =>
      rcases ih (fun p hP n hN => hPath p hP n (List.mem_cons_of_mem _ hN))
          hResult with
        ⟨m, hError, hCycle, n, hMem, hReach⟩
      exact ⟨m, hError, hCycle, n, List.mem_cons_of_mem _ hMem, hReach⟩

end DepthFirst

------------------------------------------------------------
-- Computation Order
------------------------------------------------------------

variable [DecidableEq ν]

/- Once all names have nodes, only a cycle is refused. -/
theorem cycle_of_order_eq_error
    {roots : List ν}
    {e : GraphError}
    (hNet : net.WellFormed)
    (hRoots : net.roots outputs = .ok roots)
    (hError : net.order outputs = .error e) :
    ∃ n, e = .cycle (net.name n) ∧ net.Needed outputs n ∧ net.OnCycle n := by
  have hSearch := order_depthFirst hNet hRoots
  rw [hError] at hSearch
  rcases hSearch.cycle_of_error (by simp) with
    ⟨n, hCycle, hOn, root, hMem, hReach⟩
  have hRoot := needed_of_mem_roots hRoots root hMem
  refine ⟨n, hCycle, ?_, hOn⟩
  rcases hReach with rfl | hUses
  · exact hRoot
  · exact hRoot.uses hUses

/- A network with a cycle that the outputs need has no order. -/
theorem not_onCycle_of_order_eq_ok
    {ns : List ν}
    (hOrder : net.order outputs = .ok ns)
    (hNeeded : net.Needed outputs n) :
    ¬ net.OnCycle n := by
  rcases order_ordered hOrder with ⟨-, -, hOrdered, -⟩
  exact hOrdered.not_onCycle ((mem_order_iff hOrder).mpr hNeeded)

theorem order_eq_unknownOutput_iff
    {name : String}
    (hNet : net.WellFormed) :
    net.order outputs = .error (.unknownOutput name) ↔
      outputs.find? (fun name => (net.find? name).isNone) = some name := by
  cases hRoots : net.roots outputs with
  | error e =>
      unfold order
      rw [hRoots]
      rcases roots_eq_error_iff.mp hRoots with ⟨first, rfl, hFirst⟩
      simp [hFirst]
  | ok roots =>
      constructor
      · intro hError
        rcases cycle_of_order_eq_error hNet hRoots hError with
          ⟨n, hCycle, -⟩
        cases hCycle
      · intro hUnknown
        have hError := roots_eq_error_iff.mpr ⟨name, rfl, hUnknown⟩
        rw [hRoots] at hError
        cases hError

/-
  The first name without a node is refused. Otherwise the answer
  is that of the recursive search from the outputs, which always
  ends: a cycle is refused exactly if the outputs need a node on
  one, and such a node is named, and without a cycle the nodes
  that the outputs need are listed once, each after its operands.
-/
theorem order_searches_needed
    (hNet : net.WellFormed)
    (outputs : List String) :
    (∀ name,
      net.order outputs = .error (.unknownOutput name) ↔
        outputs.find? (fun name => (net.find? name).isNone) =
          some name) ∧
    ((∀ name ∈ outputs, (net.find? name).isSome) →
      ∃ roots,
        List.Forall₂ (fun name n => net.find? name = some n)
          outputs roots ∧
        (∀ result,
          net.DepthFirst [] [] roots result ↔
            result = net.order outputs) ∧
        ((∃ label, net.order outputs = .error (.cycle label)) ↔
          ∃ n, net.Needed outputs n ∧ net.OnCycle n) ∧
        (∀ label, net.order outputs = .error (.cycle label) →
          ∃ n, net.name n = label ∧
            net.Needed outputs n ∧ net.OnCycle n) ∧
        ((¬ ∃ n, net.Needed outputs n ∧ net.OnCycle n) →
          ∃ ns, net.order outputs = .ok ns ∧ ns.Nodup ∧
            (∀ n, n ∈ ns ↔ net.Needed outputs n) ∧
            net.Ordered ns)) := by
  refine ⟨fun name => order_eq_unknownOutput_iff hNet, ?_⟩
  intro hFound
  cases hRoots : net.roots outputs with
  | error e =>
      rcases roots_eq_error_iff.mp hRoots with ⟨name, -, hUnknown⟩
      have hName := hFound name (List.mem_of_find?_eq_some hUnknown)
      have hNone := List.find?_some hUnknown
      rw [Option.isNone_iff_eq_none.mp hNone] at hName
      cases hName
  | ok roots =>
      have hSearch := order_depthFirst hNet hRoots
      have hCycle :
          ∀ e, net.order outputs = .error e →
            ∃ n, e = .cycle (net.name n) ∧
              net.Needed outputs n ∧ net.OnCycle n :=
        fun e hError => cycle_of_order_eq_error hNet hRoots hError
      refine ⟨roots, roots_eq_ok_iff.mp hRoots, ?_, ?_, ?_, ?_⟩
      · intro result
        constructor
        · exact fun hOther => hSearch.unique hOther
        · rintro rfl
          exact hSearch
      · constructor
        · rintro ⟨label, hError⟩
          rcases hCycle _ hError with ⟨n, -, hNeeded, hOn⟩
          exact ⟨n, hNeeded, hOn⟩
        · rintro ⟨n, hNeeded, hOn⟩
          cases hOrder : net.order outputs with
          | ok ns =>
              exact absurd hOn (not_onCycle_of_order_eq_ok hOrder hNeeded)
          | error e =>
              rcases hCycle e hOrder with ⟨m, rfl, -⟩
              exact ⟨net.name m, rfl⟩
      · intro label hError
        rcases hCycle _ hError with ⟨n, hLabel, hNeeded, hOn⟩
        cases hLabel
        exact ⟨n, rfl, hNeeded, hOn⟩
      · intro hNone
        cases hOrder : net.order outputs with
        | ok ns =>
            rcases order_ordered hOrder with ⟨-, -, hOrdered, -⟩
            exact ⟨ns, rfl, hOrdered.nodup,
              fun n => mem_order_iff hOrder, hOrdered⟩
        | error e =>
            rcases hCycle e hOrder with ⟨n, -, hNeeded, hOn⟩
            exact absurd ⟨n, hNeeded, hOn⟩ hNone

end Network

/-
  Two nodes that need each other, beside a node that is added to
  itself.
-/
def feedback : Network (Fin 4) where
  nodes := [0, 1, 2, 3]
  find? := fun name =>
    if name = "doubled" then some 1
    else if name = "state" then some 3
    else none
  name := fun n => ["input", "doubled", "mixed", "state"].getD n ""
  op := fun n => [NodeOp.input [2], .add, .add, .relu].getD n .add
  operands := fun n => [[], [0, 0], [1, 3], [2]].getD n []

theorem wellFormed_feedback : feedback.WellFormed where
  find?_mem := by
    have hAll : ∀ n, n ∈ feedback.nodes := by decide
    exact fun _ n _ => hAll n
  operands_mem := by decide

/- The cycle is found after the nodes beside it are finished. -/
theorem Network.order_searches_needed_feedback :
    feedback.WellFormed ∧
    feedback.DepthFirst [] [] [1, 3] (.error (.cycle "state")) ∧
    (∃ n, feedback.name n = "state" ∧
      feedback.Needed ["doubled", "state"] n ∧ feedback.OnCycle n) ∧
    ∀ n, n ∈ [0, 1] ↔ feedback.Needed ["doubled"] n := by
  have hError :
      feedback.order ["doubled", "state"] = .error (.cycle "state") := by
    decide +kernel
  have hOk : feedback.order ["doubled"] = .ok [0, 1] := by
    decide +kernel
  rcases (order_searches_needed wellFormed_feedback
      ["doubled", "state"]).2 (by decide) with
    ⟨roots, hRoots, hSearch, -, hNamed, -⟩
  cases roots_eq_ok_iff.mpr hRoots
  rcases (order_searches_needed wellFormed_feedback
      ["doubled"]).2 (by decide) with
    ⟨-, -, -, hCycle, -, hListed⟩
  have hNone :
      ¬ ∃ n, feedback.Needed ["doubled"] n ∧ feedback.OnCycle n := by
    intro hOn
    rcases hCycle.mpr hOn with ⟨label, hFails⟩
    rw [hOk] at hFails
    cases hFails
  rcases hListed hNone with ⟨ns, hOrder, -, hNeeded, -⟩
  rw [hOk] at hOrder
  cases hOrder
  exact ⟨wellFormed_feedback, (hSearch _).mpr hError.symm,
    hNamed "state" hError, hNeeded⟩

end Systolic
