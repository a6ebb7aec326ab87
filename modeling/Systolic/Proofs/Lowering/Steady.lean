import Systolic.Proofs.Graph.Denotation
import Systolic.Proofs.Lowering.Sound

/-
  This file proves what lowering keeps. The computation of a node
  adds a source with its home to the workbench, or an accumulator
  tensor and its result, and a request gives a tensor a place for
  the host. A property that survives these steps holds when all
  nodes are lowered.

  Key definitions include:
    * `Lowering.Equips`
    * `Plan.Steady`

  Key theorems include:
    * `Lowering.Computes.equips`
    * `Lowering.LowersAll.induct`
    * `Lowering.LowersAll.steady`
-/

namespace Systolic

variable {ν : Type} [DecidableEq ν]

namespace Lowering

variable {p : Plan ν} {s s' : Lowering ν} {n : ν}

------------------------------------------------------------
-- Steps
------------------------------------------------------------

/-
  What the computation of a node does to a workbench. A source is
  added with its home. Any other node is known, or it adds an
  accumulator tensor that it activates and the result of the
  activation.
-/
inductive Equips
    (p : Plan ν)
    (n : ν)
    (s : Lowering ν) : Lowering ν → Prop
| source {shape : List Nat} {layout : VectorLayout}
    {name : String} {role : TensorRole} {bank : DramBank}
    (hSource : (p.network.op n).IsSource)
    (hLayout :
      p.sourceLayout n shape s.bench.machine.arraySize = .ok layout)
    (hBank : role.bank? .home = some bank)
    (hName : p.Names n name) :
    Equips p n s (s.source n name layout role bank)
| known {s' : Lowering ν}
    (hOther : ¬ (p.network.op n).IsSource)
    (hBench : s'.bench = s.bench) :
    Equips p n s s'
| result {s' : Lowering ν} {shape : List Nat} {layout : VectorLayout}
    {name name' : String}
    (hOther : ¬ (p.network.op n).IsSource)
    (hLayout :
      VectorLayout.ofVariable shape s.bench.machine.arraySize = .ok layout)
    (hName : p.Names n name)
    (hName' : p.Names n name')
    (hBench :
      s'.bench =
        ((s.grow name layout .accumulator .accumulator).grow name'
          layout .intermediate .scratchpad).bench)
    (hActivated : s.next ∈ activated s'.program) :
    Equips p n s s'

theorem Computes.equips
    (hComputes : s.Computes p n s') :
    s.Equips p n s' := by
  cases hComputes with
  | source hOp _ hLayout _ hBank _ hName =>
      refine .source ?_ hLayout hBank hName
      rcases hOp with hOp | hOp <;> rw [hOp] <;> trivial
  | known hOp => exact .known (by rw [hOp]; exact id) rfl
  | @product _ _ _ _ _ _ _ _ _ _ s₁ _ _ _ hOp _ _ _ _ _ _ _ hFetches _
      hLayout hName hName' =>
      refine .result (by rw [hOp]; exact id) hLayout hName hName' ?_ ?_
      · unfold Lowering.conclude Lowering.grow
        rw [hFetches.bench_eq]
      · have hNext : s₁.next = s.next := by
          rw [Lowering.next, hFetches.bench_eq, Lowering.next]
        rw [hNext]
        exact mem_activated_push.mpr (.inr rfl)
  | @sum _ _ _ _ _ layout name _ _ s₂ hOp _ _ _ _ hLayout hFirst _ _
      hSecond _ _ hName hName' =>
      refine .result (by rw [hOp]; exact id) hLayout hName hName' ?_ ?_
      · have hBench :
            s₂.bench =
              (s.grow name layout .accumulator .accumulator).bench := by
          rw [hSecond, bench_push, bench_fetch, hFirst, bench_push,
            bench_fetch]
        unfold Lowering.conclude
        unfold Lowering.grow at hBench ⊢
        rw [hBench]
      · exact mem_activated_push.mpr (.inr rfl)
  | rectifier hOp _ _ _ hLayout hFirst _ hName hName' =>
      refine .result (by rw [hOp]; exact id) hLayout hName hName' ?_ ?_
      · subst hFirst
        unfold Lowering.conclude Lowering.grow
        rw [bench_fetch]
      · exact mem_activated_push.mpr (.inr rfl)

/- What computations and requests keep holds when all nodes are lowered. -/
theorem LowersAll.induct
    {done : List ν}
    {I : List ν → Lowering ν → Prop}
    (hStart : I [] s)
    (hComputes :
      ∀ done n s₁ s₂, I done s₁ → s₁.Computes p n s₂ → I (done ++ [n]) s₂)
    (hExports :
      ∀ done n s₁ s₂, I done s₁ → s₁.Exports n s₂ → I done s₂)
    (hAll : s.LowersAll p done s') :
    I done s' := by
  induction hAll with
  | nil => exact hStart
  | snoc _ _ _ hLast ih =>
      cases hLast with
      | inner hLast _ => exact hComputes _ _ _ _ ih hLast
      | requested hLast _ hRequest =>
          exact hExports _ _ _ _ (hComputes _ _ _ _ ih hLast) hRequest

/- A node adds two tensors at most. -/
theorem LowersAll.size_tensors_le
    {done : List ν}
    (hAll : s.LowersAll p done s') :
    s'.bench.tensors.size ≤ s.bench.tensors.size + 2 * done.length := by
  refine hAll.induct
    (I := fun some s' =>
      s'.bench.tensors.size ≤ s.bench.tensors.size + 2 * some.length)
    (Nat.le_refl _) ?_ ?_
  · intro done n s₁ s₂ hBefore hComputes
    rw [List.length_append, List.length_singleton]
    have hStep : s₂.bench.tensors.size ≤ s₁.bench.tensors.size + 2 := by
      cases hComputes.equips with
      | source =>
          simp [source, grow, Workbench.reserved, Workbench.addTensor]
      | known _ hBench =>
          rw [hBench]
          exact Nat.le_add_right _ _
      | result _ _ _ _ hBench =>
          rw [hBench]
          simp [grow, Workbench.addTensor]
    omega
  · intro done n s₁ s₂ hBefore hExports
    cases hExports with
    | again =>
        rw [bench_push, bench_fetch]
        exact hBefore
    | first =>
        rw [bench_push]
        simpa [Workbench.reserved] using hBefore

end Lowering

------------------------------------------------------------
-- Workbenches
------------------------------------------------------------

/-
  A property of workbenches that survives new tensors, which are
  named after nodes of a list, and new places in DRAM.
-/
structure Plan.Steady
    (p : Plan ν)
    (nodes : List ν)
    (I : Workbench → Prop) : Prop where
  source :
    ∀ (s : Lowering ν) n name shape layout role bank,
      n ∈ nodes → p.Names n name →
        p.sourceLayout n shape s.bench.machine.arraySize = .ok layout →
          role.bank? .home = some bank →
            I s.bench → I (s.source n name layout role bank).bench
  grow :
    ∀ (s : Lowering ν) n name shape layout role kind,
      n ∈ nodes → p.Names n name →
        VectorLayout.ofVariable shape s.bench.machine.arraySize =
            .ok layout →
          I s.bench → I (s.grow name layout role kind).bench
  exported :
    ∀ w t tensor, w.tensors.get? t = some tensor →
      tensor.exported = none →
        I w → I (w.reserved t .exported .dram0 tensor.layout.depth)

namespace Lowering

variable {p : Plan ν} {s s' : Lowering ν} {n : ν} {I : Workbench → Prop}

theorem Computes.steady
    {nodes : List ν}
    (hSteady : p.Steady nodes I)
    (hNode : n ∈ nodes)
    (hI : I s.bench)
    (hComputes : s.Computes p n s') :
    I s'.bench := by
  cases hComputes.equips with
  | source _ hLayout hBank hName =>
      exact hSteady.source s n _ _ _ _ _ hNode hName hLayout hBank hI
  | known _ hBench =>
      rw [hBench]
      exact hI
  | @result _ _ layout name name' _ hLayout hName hName' hBench =>
      rw [hBench]
      exact hSteady.grow _ n name' _ layout _ _ hNode hName' hLayout
        (hSteady.grow s n name _ layout _ _ hNode hName hLayout hI)

theorem Exports.steady
    {nodes : List ν}
    (hSteady : p.Steady nodes I)
    (hI : I s.bench)
    (hExports : s.Exports n s') :
    I s'.bench := by
  cases hExports with
  | again =>
      rw [bench_push, bench_fetch]
      exact hI
  | first _ hTensor hNew => exact hSteady.exported _ _ _ hTensor hNew hI

/- A steady property holds when all nodes are lowered. -/
theorem LowersAll.steady
    {done : List ν}
    (hSteady : p.Steady done I)
    (hI : I s.bench)
    (hAll : s.LowersAll p done s') :
    I s'.bench := by
  have hBoth : (∀ n ∈ done, n ∈ done) → I s'.bench := by
    refine hAll.induct
      (I := fun some s' => (∀ n ∈ some, n ∈ done) → I s'.bench)
      (fun _ => hI) ?_ ?_
    · intro some n s₁ s₂ hBefore hComputes hSome
      rw [List.forall_mem_append, List.forall_mem_singleton] at hSome
      exact hComputes.steady hSteady hSome.2 (hBefore hSome.1)
    · intro some n s₁ s₂ hBefore hExports hSome
      exact hExports.steady hSteady (hBefore hSome)
  exact hBoth (fun _ h => h)

end Lowering

end Systolic
