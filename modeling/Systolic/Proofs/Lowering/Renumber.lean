import Mathlib.Data.List.Basic
import Systolic.Program.Lowering

/-
  This file proves that lowering does not depend on how nodes are
  numbered, nor on anything of a machine but the size of its
  array: two plans that differ in the numbers of their nodes are
  lowered to the same program on workbenches that differ in their
  machines, or fail with the same error. Each action on one plan
  is mirrored by the action on the other one.

  Key definitions include:
    * `Plan.Renumbers`
    * `Lowering.renumber`
    * `Lower.Mirrors`

  Key theorems include:
    * `Lower.Mirrors.bind`
    * `Lower.compute_mirrors`
    * `Lower.forM_node_mirrors`
    * `lowerNodes_recast`
-/

namespace Systolic

variable {ν μ α β : Type}

/- What is found depends on the members of a list only. -/
theorem find?_eq_of_forall_mem
    {f g : α → Bool}
    {l : List α}
    (hSame : ∀ a ∈ l, f a = g a) :
    l.find? f = l.find? g := by
  induction l with
  | nil => rfl
  | cons a l ih =>
      rw [List.find?_cons, List.find?_cons, hSame a List.mem_cons_self,
        ih (fun b hMem => hSame b (List.mem_cons_of_mem _ hMem))]

------------------------------------------------------------
-- Plans
------------------------------------------------------------

/-
  Two plans that differ in the numbers of their nodes only. The
  nodes in `P` have numbers, and hold the plan and all operands.
-/
structure Plan.Renumbers
    (p : Plan ν)
    (q : Plan μ)
    (P : ν → Prop)
    (φ : ν → μ) : Prop where
  inj : ∀ {n m}, P n → P m → φ n = φ m → n = m
  closed : ∀ {n m}, P n → m ∈ p.network.operands n → P m
  name_eq : ∀ {n}, P n → q.network.name (φ n) = p.network.name n
  op_eq : ∀ {n}, P n → q.network.op (φ n) = p.network.op n
  operands_map :
    ∀ {n}, P n →
      q.network.operands (φ n) = (p.network.operands n).map φ
  nodes_mem : ∀ n ∈ p.nodes, P n
  nodes_map : q.nodes = p.nodes.map φ
  outputs_mem : ∀ n ∈ p.outputs, P n
  outputs_map : q.outputs = p.outputs.map φ

namespace Plan.Renumbers

variable {p : Plan ν} {q : Plan μ} {P : ν → Prop} {φ : ν → μ}
variable {ns : List ν} {n : ν}

section

variable (hPlan : p.Renumbers q P φ)
include hPlan

theorem eq_iff
    {m : ν}
    (hN : P n)
    (hM : P m) :
    φ n = φ m ↔ n = m :=
  ⟨hPlan.inj hN hM, congrArg φ⟩

theorem mem_map_iff
    (hNodes : ∀ m ∈ ns, P m)
    (hN : P n) :
    φ n ∈ ns.map φ ↔ n ∈ ns := by
  constructor
  · intro hMem
    rcases List.mem_map.mp hMem with ⟨m, hM, hSame⟩
    rw [← hPlan.inj (hNodes m hM) hN hSame]
    exact hM
  · exact List.mem_map_of_mem

theorem mem_outputs_iff
    (hN : P n) :
    φ n ∈ q.outputs ↔ n ∈ p.outputs := by
  rw [hPlan.outputs_map]
  exact hPlan.mem_map_iff hPlan.outputs_mem hN

theorem isWeight_iff
    (hN : P n) :
    q.IsWeight (φ n) ↔ p.IsWeight n := by
  have hSecond :
      ∀ m, P m →
        ((q.network.operands (φ m))[1]? = some (φ n) ↔
          (p.network.operands m)[1]? = some n) := by
    intro m hM
    rw [hPlan.operands_map hM, List.getElem?_map]
    cases hGet : (p.network.operands m)[1]? with
    | none => simp
    | some k =>
        have hK := hPlan.closed hM (List.mem_of_getElem? hGet)
        simp only [Option.map_some, Option.some.injEq, hPlan.eq_iff hK hN]
  constructor
  · rintro ⟨_, hMem, hOp, hGet⟩
    rw [hPlan.nodes_map] at hMem
    rcases List.mem_map.mp hMem with ⟨m, hM, rfl⟩
    have hNode := hPlan.nodes_mem m hM
    rw [hPlan.op_eq hNode] at hOp
    exact ⟨m, hM, hOp, (hSecond m hNode).mp hGet⟩
  · rintro ⟨m, hM, hOp, hGet⟩
    have hNode := hPlan.nodes_mem m hM
    refine ⟨φ m, ?_, ?_, (hSecond m hNode).mpr hGet⟩
    · rw [hPlan.nodes_map]
      exact List.mem_map_of_mem hM
    · rw [hPlan.op_eq hNode]
      exact hOp

end

variable [DecidableEq ν] [DecidableEq μ]

section

variable (hPlan : p.Renumbers q P φ)
include hPlan

theorem count_map
    (hNodes : ∀ m ∈ ns, P m)
    (hN : P n) :
    (ns.map φ).count (φ n) = ns.count n := by
  induction ns with
  | nil => rfl
  | cons m ns ih =>
      have hRest := ih (fun k hMem => hNodes k (List.mem_cons_of_mem _ hMem))
      have hHead := hPlan.eq_iff (hNodes m List.mem_cons_self) hN
      rw [List.map_cons, List.count_cons, List.count_cons, hRest]
      simp only [beq_iff_eq, hHead]

/- A node is used as often as its number. -/
theorem uses_eq
    (hN : P n) :
    q.uses (φ n) = p.uses n := by
  have hAll :
      q.nodes.flatMap q.network.operands =
        (p.nodes.flatMap p.network.operands).map φ := by
    rw [hPlan.nodes_map, List.flatMap_map, List.map_flatMap]
    apply List.flatMap_congr
    intro m hMem
    exact hPlan.operands_map (hPlan.nodes_mem m hMem)
  unfold uses
  rw [hAll]
  apply hPlan.count_map _ hN
  intro m hMem
  rcases List.mem_flatMap.mp hMem with ⟨k, hK, hOperand⟩
  exact hPlan.closed (hPlan.nodes_mem k hK) hOperand

theorem fusible_iff
    (hN : P n) :
    q.Fusible (φ n) ↔ p.Fusible n := by
  unfold Fusible
  rw [hPlan.op_eq hN, hPlan.uses_eq hN, hPlan.mem_outputs_iff hN]

/- The rectifier of a node has the number of its rectifier. -/
theorem fused?_map
    (hN : P n) :
    q.fused? (φ n) = (p.fused? n).map φ := by
  have hRectifier :
      ∀ r ∈ p.nodes,
        (q.network.op (φ r) = .relu ∧ q.network.operands (φ r) = [φ n] ↔
          p.network.op r = .relu ∧ p.network.operands r = [n]) := by
    intro r hMem
    have hR := hPlan.nodes_mem r hMem
    rw [hPlan.op_eq hR, hPlan.operands_map hR, List.map_eq_singleton_iff]
    constructor
    · rintro ⟨hOp, m, hOperands, hSame⟩
      have hM := hPlan.closed hR (n := r) (m := m) (by simp [hOperands])
      rw [← hPlan.inj hM hN hSame]
      exact ⟨hOp, hOperands⟩
    · rintro ⟨hOp, hOperands⟩
      exact ⟨hOp, n, hOperands, rfl⟩
  unfold fused?
  by_cases hFusible : p.Fusible n
  · rw [if_pos hFusible, if_pos ((hPlan.fusible_iff hN).mpr hFusible),
      hPlan.nodes_map, List.find?_map]
    congr 1
    apply find?_eq_of_forall_mem
    intro r hMem
    simp only [Function.comp_apply, decide_eq_decide]
    exact hRectifier r hMem
  · rw [if_neg hFusible, if_neg (mt (hPlan.fusible_iff hN).mp hFusible)]
    rfl

end

end Plan.Renumbers

------------------------------------------------------------
-- Workbenches
------------------------------------------------------------

/-
  A change of all that lowering does not look at: of a machine,
  only the size of its array stays.
-/
structure Workbench.Recast where
  machine : Machine → Machine
  layout : WordLayout → WordLayout
  memory : Memory → Memory
  arraySize_eq : ∀ m, (machine m).arraySize = m.arraySize

/- Nothing is changed. -/
def Workbench.Recast.same : Recast :=
  ⟨id, id, id, fun _ => rfl⟩

namespace Workbench

/- A workbench with another machine and other memories. -/
def recast
    (ψ : Recast)
    (w : Workbench) : Workbench :=
  { w with
    machine := ψ.machine w.machine
    layout := ψ.layout w.layout
    memory := ψ.memory w.memory }

@[simp] theorem tensors_recast
    (ψ : Recast)
    (w : Workbench) :
    (w.recast ψ).tensors = w.tensors :=
  rfl

@[simp] theorem dram_recast
    (ψ : Recast)
    (w : Workbench) :
    (w.recast ψ).dram = w.dram :=
  rfl

/- A step does on a changed workbench what it does on the first. -/
def Commutes
    (ψ : Recast)
    (step : Workbench → Except CompileError (α × Workbench)) : Prop :=
  ∀ w, step (w.recast ψ) =
    (step w).map (fun result => (result.1, result.2.recast ψ))

variable (ψ : Recast)

theorem commutes_reserveSlot
    (t : TensorId)
    (slot : DramSlot)
    (bank : DramBank) :
    Commutes ψ (·.reserveSlot t slot bank) := by
  intro w
  simp only [reserveSlot, tensors_recast, dram_recast]
  cases w.tensors.fetch t with
  | error e => rfl
  | ok tensor =>
      dsimp only
      cases w.dram.allocate bank tensor.layout.depth <;> rfl

theorem commutes_addHomed
    (name : String)
    (layout : VectorLayout)
    (role : TensorRole)
    (bank : DramBank) :
    Commutes ψ (·.addHomed name layout role bank) := by
  intro w
  let added := w.addTensor name layout role .scratchpad
  have hAdded :
      (w.recast ψ).addTensor name layout role .scratchpad =
        (added.1, added.2.recast ψ) := rfl
  unfold addHomed
  simp only [hAdded, commutes_reserveSlot ψ added.1 .home bank added.2]
  cases added.2.reserveSlot added.1 .home bank <;> rfl

theorem commutes_exportTensor (t : TensorId) :
    Commutes ψ (·.exportTensor t) := by
  intro w
  simp only [exportTensor, tensors_recast]
  cases w.tensors.fetch t with
  | error e => rfl
  | ok tensor =>
      dsimp only
      cases tensor.exported with
      | some location => rfl
      | none => exact commutes_reserveSlot ψ t .exported .dram0 w

end Workbench

------------------------------------------------------------
-- States
------------------------------------------------------------

namespace Lowering

/-
  The same state with other numbers for its nodes, and with
  another workbench.
-/
def renumber
    (φ : ν → μ)
    (ψ : Workbench.Recast)
    (s : Lowering ν) : Lowering μ :=
  { bench := s.bench.recast ψ
    values := s.values.map (fun entry => (φ entry.1, entry.2))
    program := s.program }

/- All nodes with values are among given ones. -/
def Within
    (P : ν → Prop)
    (s : Lowering ν) : Prop :=
  ∀ entry ∈ s.values, P entry.1

theorem value?_renumber
    [DecidableEq ν]
    [DecidableEq μ]
    {p : Plan ν}
    {q : Plan μ}
    {P : ν → Prop}
    {φ : ν → μ}
    {ψ : Workbench.Recast}
    {s : Lowering ν}
    {n : ν}
    (hPlan : p.Renumbers q P φ)
    (hWithin : s.Within P)
    (hN : P n) :
    (s.renumber φ ψ).value? (φ n) = s.value? n := by
  unfold value? renumber
  rw [List.find?_map, Option.map_map]
  congr 1
  apply find?_eq_of_forall_mem
  intro entry hMem
  simp only [Function.comp_apply, decide_eq_decide]
  exact hPlan.eq_iff (hWithin entry hMem) hN

end Lowering

------------------------------------------------------------
-- Mirrored Actions
------------------------------------------------------------

namespace Lower

variable {bias : Option ν}

/-
  An action on renumbered nodes does in a renumbered state what
  another action does: it ends with the same result and in the
  renumbered state, or it fails with the same error.
-/
def Mirrors
    (P : ν → Prop)
    (φ : ν → μ)
    (ψ : Workbench.Recast)
    (x : Lower ν α)
    (y : Lower μ α)
    (s : Lowering ν) : Prop :=
  match x s with
  | .ok a s' => s'.Within P ∧ y (s.renumber φ ψ) = .ok a (s'.renumber φ ψ)
  | .error e _ => ∃ t, y (s.renumber φ ψ) = .error e t

section Rules

variable {P : ν → Prop} {φ : ν → μ} {ψ : Workbench.Recast}
variable {s : Lowering ν}

/- Two mirrored runs from the start end alike. -/
theorem Mirrors.start_cases
    {x : Lower ν α}
    {y : Lower μ α}
    {bench : Workbench}
    (hMirrors : Mirrors P φ ψ x y (Lowering.start bench)) :
    (∃ a s, x (Lowering.start bench) = .ok a s ∧
        y (Lowering.start (bench.recast ψ)) = .ok a (s.renumber φ ψ)) ∨
      ∃ e s t, x (Lowering.start bench) = .error e s ∧
        y (Lowering.start (bench.recast ψ)) = .error e t := by
  unfold Mirrors at hMirrors
  split at hMirrors
  case h_1 a s hRun => exact .inl ⟨a, s, hRun, hMirrors.2⟩
  case h_2 e s hRun =>
    rcases hMirrors with ⟨t, hRun'⟩
    exact .inr ⟨e, s, t, hRun, hRun'⟩

theorem mirrors_pure
    (hWithin : s.Within P)
    (a : α) :
    Mirrors P φ ψ (pure a) (pure a) s :=
  ⟨hWithin, rfl⟩

theorem mirrors_throw (e : CompileError) :
    Mirrors P φ ψ (throw e : Lower ν α) (throw e) s :=
  ⟨_, rfl⟩

/- A question about the state may see other numbers. -/
theorem mirrors_get
    {f : Lowering ν → Lower ν α}
    {g : Lowering μ → Lower μ α}
    (hRest : Mirrors P φ ψ (f s) (g (s.renumber φ ψ)) s) :
    Mirrors P φ ψ (get >>= f) (get >>= g) s :=
  hRest

theorem mirrors_modify
    {f : Lowering ν → Lowering ν}
    {g : Lowering μ → Lowering μ}
    (hWithin : (f s).Within P)
    (hSame : g (s.renumber φ ψ) = (f s).renumber φ ψ) :
    Mirrors P φ ψ (modify f) (modify g) s :=
  ⟨hWithin, congrArg (EStateM.Result.ok PUnit.unit) hSame⟩

theorem Mirrors.bind
    {x : Lower ν α}
    {y : Lower μ α}
    {f : α → Lower ν β}
    {g : α → Lower μ β}
    (hFirst : Mirrors P φ ψ x y s)
    (hRest : ∀ a s', s'.Within P → Mirrors P φ ψ (f a) (g a) s') :
    Mirrors P φ ψ (x >>= f) (y >>= g) s := by
  unfold Mirrors at hFirst ⊢
  simp only [Bind.bind, EStateM.bind]
  cases hX : x s with
  | error e s' =>
      rw [hX] at hFirst
      rcases hFirst with ⟨t, hY⟩
      rw [hY]
      exact ⟨t, rfl⟩
  | ok a s' =>
      rw [hX] at hFirst
      rcases hFirst with ⟨hWithin, hY⟩
      rw [hY]
      exact hRest a s' hWithin

/- Actions on a list of nodes, one after the other. -/
theorem forM_mirrors
    {x : ν → Lower ν PUnit}
    {y : μ → Lower μ PUnit}
    {ns : List ν}
    (hWithin : s.Within P)
    (hEach :
      ∀ n ∈ ns, ∀ s', s'.Within P → Mirrors P φ ψ (x n) (y (φ n)) s') :
    Mirrors P φ ψ (ns.forM x) ((ns.map φ).forM y) s := by
  induction ns generalizing s with
  | nil => exact mirrors_pure hWithin _
  | cons n ns ih =>
      refine (hEach n List.mem_cons_self s hWithin).bind ?_
      intro _ s' hWithin'
      exact ih hWithin'
        (fun m hMem => hEach m (List.mem_cons_of_mem _ hMem))

end Rules

variable {p : Plan ν} {q : Plan μ} {P : ν → Prop} {φ : ν → μ}
variable {ψ : Workbench.Recast} {s : Lowering ν} {n : ν}

------------------------------------------------------------
-- Programs and Tensors
------------------------------------------------------------

theorem malformed_mirrors
    (hPlan : p.Renumbers q P φ)
    (hN : P n)
    (fault : NodeFault) :
    Mirrors P φ ψ (malformed p n fault : Lower ν α)
      (malformed q (φ n) fault) s := by
  unfold malformed
  rw [hPlan.name_eq hN]
  exact mirrors_throw _

/- A node is refused unless a condition holds. -/
theorem refuse_mirrors
    {c : Prop}
    [Decidable c]
    (hPlan : p.Renumbers q P φ)
    (hWithin : s.Within P)
    (hN : P n)
    (fault : NodeFault) :
    Mirrors P φ ψ (if c then malformed p n fault else pure PUnit.unit)
      (if c then malformed q (φ n) fault else pure PUnit.unit) s := by
  by_cases hC : c
  · rw [if_pos hC, if_pos hC]
    exact malformed_mirrors hPlan hN fault
  · rw [if_neg hC, if_neg hC]
    exact mirrors_pure hWithin _

theorem refuse_bind_mirrors
    {c : Prop}
    [Decidable c]
    {x : PUnit → Lower ν α}
    {y : PUnit → Lower μ α}
    {fault : NodeFault}
    (hPlan : p.Renumbers q P φ)
    (hN : P n)
    (hRest : Mirrors P φ ψ (x PUnit.unit) (y PUnit.unit) s) :
    Mirrors P φ ψ (if c then malformed p n fault >>= x else x PUnit.unit)
      (if c then malformed q (φ n) fault >>= y else y PUnit.unit) s := by
  by_cases hC : c
  · rw [if_pos hC, if_pos hC]
    unfold malformed
    rw [hPlan.name_eq hN]
    exact ⟨_, rfl⟩
  · rw [if_neg hC, if_neg hC]
    exact hRest

theorem push_mirrors
    (hWithin : s.Within P)
    (op : Operation) :
    Mirrors P φ ψ (push op) (push op) s :=
  mirrors_modify hWithin rfl

theorem define_mirrors
    (hWithin : s.Within P)
    (hN : P n)
    (t : TensorId)
    (shape : List Nat)
    (needsLoad : Bool) :
    Mirrors P φ ψ (define n t shape needsLoad)
      (define (φ n) t shape needsLoad) s := by
  refine mirrors_modify ?_ rfl
  intro entry hMem
  rcases List.mem_cons.mp hMem with rfl | hOld
  · exact hN
  · exact hWithin entry hOld

theorem layout_mirrors
    (hPlan : p.Renumbers q P φ)
    (hWithin : s.Within P)
    (hN : P n)
    (make : List Nat → Nat → Except LayoutFault VectorLayout)
    (shape : List Nat) :
    Mirrors P φ ψ (layout make p n shape) (layout make q (φ n) shape) s := by
  refine mirrors_get ?_
  have hSize :
      (s.renumber φ ψ).bench.machine.arraySize =
        s.bench.machine.arraySize :=
    ψ.arraySize_eq s.bench.machine
  rw [hSize]
  cases make shape s.bench.machine.arraySize with
  | ok l => exact mirrors_pure hWithin l
  | error fault =>
      cases fault with
      | tooLarge => exact malformed_mirrors hPlan hN _
      | emptyVector => exact mirrors_throw _

theorem onBench_mirrors
    {step : Workbench → Except CompileError (α × Workbench)}
    (hWithin : s.Within P)
    (hStep : Workbench.Commutes ψ step) :
    Mirrors P φ ψ (onBench step) (onBench step) s := by
  unfold onBench
  refine mirrors_get ?_
  have hBench : (s.renumber φ ψ).bench = s.bench.recast ψ := rfl
  rw [hBench, hStep]
  cases step s.bench with
  | error e => exact mirrors_throw e
  | ok result => exact ⟨hWithin, rfl⟩

theorem accumulator_mirrors
    (hPlan : p.Renumbers q P φ)
    (hWithin : s.Within P)
    (hN : P n)
    (shape : List Nat) :
    Mirrors P φ ψ (accumulator p n shape) (accumulator q (φ n) shape) s := by
  unfold accumulator
  rw [hPlan.name_eq hN]
  refine (layout_mirrors hPlan hWithin hN _ shape).bind ?_
  intro l s₁ hWithin₁
  exact onBench_mirrors hWithin₁ (fun _ => rfl)

theorem result_mirrors
    {named : ν}
    (hPlan : p.Renumbers q P φ)
    (hWithin : s.Within P)
    (hN : P n)
    (hNamed : P named)
    (shape : List Nat) :
    Mirrors P φ ψ (result p n named shape) (result q (φ n) (φ named) shape)
      s := by
  unfold result
  rw [hPlan.name_eq hNamed]
  refine (layout_mirrors hPlan hWithin hN _ shape).bind ?_
  intro l s₁ hWithin₁
  exact onBench_mirrors hWithin₁ (fun _ => rfl)

theorem forM_push_mirrors
    (hWithin : s.Within P)
    (ops : List Operation) :
    Mirrors P φ ψ (ops.forM push) (ops.forM push) s := by
  induction ops generalizing s with
  | nil => exact mirrors_pure hWithin _
  | cons op ops ih =>
      refine (push_mirrors hWithin op).bind ?_
      intro _ s₁ hWithin₁
      exact ih hWithin₁

section

variable (hPlan : p.Renumbers q P φ) (hWithin : s.Within P) (hN : P n)
include hPlan hWithin hN

theorem checkArity_mirrors
    (arity : Nat) :
    Mirrors P φ ψ (checkArity p n arity) (checkArity q (φ n) arity) s := by
  unfold checkArity
  rw [hPlan.operands_map hN, hPlan.op_eq hN, List.length_map]
  exact refuse_mirrors hPlan hWithin hN _

theorem checkShape_mirrors
    (shape : List Nat) :
    Mirrors P φ ψ (checkShape p n shape) (checkShape q (φ n) shape) s :=
  refuse_mirrors hPlan hWithin hN _

theorem checkConstant_mirrors
    {c : ν}
    (hC : P c) :
    Mirrors P φ ψ (checkConstant p n c) (checkConstant q (φ n) (φ c)) s := by
  unfold checkConstant
  rw [hPlan.name_eq hC]
  have hOp := hPlan.op_eq hC
  simp only [hOp]
  exact refuse_mirrors hPlan hWithin hN _

theorem productShape_mirrors
    (x w : List Nat) :
    Mirrors P φ ψ (productShape p n x w) (productShape q (φ n) x w) s := by
  unfold productShape
  split
  case h_1 k columns =>
    cases x.getLast? with
    | none => exact malformed_mirrors hPlan hN _
    | some inner =>
        by_cases hInner : inner = k
        · simp only [if_pos hInner]
          exact mirrors_pure hWithin _
        · simp only [if_neg hInner]
          exact malformed_mirrors hPlan hN _
  case h_2 => exact malformed_mirrors hPlan hN _

end

/- An action on a node that may be missing. -/
theorem option_forM_mirrors
    {x : ν → Lower ν PUnit}
    {y : μ → Lower μ PUnit}
    (hWithin : s.Within P)
    (hEach : ∀ b ∈ bias, Mirrors P φ ψ (x b) (y (φ b)) s) :
    Mirrors P φ ψ (bias.forM x) ((bias.map φ).forM y) s := by
  cases bias with
  | none => exact mirrors_pure hWithin _
  | some b => exact hEach b rfl

theorem input_mirrors
    (hPlan : p.Renumbers q P φ)
    (hWithin : s.Within P)
    (hN : P n)
    (shape : List Nat) :
    Mirrors P φ ψ (input p n shape) (input q (φ n) shape) s := by
  unfold input
  rw [hPlan.name_eq hN]
  refine (checkArity_mirrors hPlan hWithin hN 0).bind ?_
  intro _ s₁ hWithin₁
  refine (checkShape_mirrors hPlan hWithin₁ hN shape).bind ?_
  intro _ s₂ hWithin₂
  refine (layout_mirrors hPlan hWithin₂ hN _ shape).bind ?_
  intro l s₃ hWithin₃
  refine (onBench_mirrors hWithin₃
    (Workbench.commutes_addHomed ψ _ l _ _)).bind ?_
  intro t s₄ hWithin₄
  exact define_mirrors hWithin₄ hN _ _ _

------------------------------------------------------------
-- Operands
------------------------------------------------------------

variable [DecidableEq ν] [DecidableEq μ]

section

variable (hPlan : p.Renumbers q P φ)
include hPlan

section

variable (hWithin : s.Within P)
include hWithin

theorem value_mirrors
    (hN : P n) :
    Mirrors P φ ψ (value p n) (value q (φ n)) s := by
  unfold value
  refine mirrors_get ?_
  rw [Lowering.value?_renumber hPlan hWithin hN]
  cases s.value? n with
  | none => exact malformed_mirrors hPlan hN _
  | some v => exact mirrors_pure hWithin v

theorem operand_mirrors
    (hN : P n) :
    Mirrors P φ ψ (operand p n) (operand q (φ n)) s := by
  refine (value_mirrors hPlan hWithin hN).bind ?_
  intro v s₁ hWithin₁
  by_cases hLoad : v.needsLoad = true
  · simp only [if_pos hLoad]
    refine (define_mirrors hWithin₁ hN _ _ _).bind ?_
    intro _ s₂ hWithin₂
    refine (push_mirrors hWithin₂ _).bind ?_
    intro _ s₃ hWithin₃
    exact mirrors_pure hWithin₃ _
  · simp only [if_neg hLoad]
    exact mirrors_pure hWithin₁ _

theorem elementwise_mirrors
    (hN : P n) :
    Mirrors P φ ψ (elementwise p n) (elementwise q (φ n)) s := by
  refine (operand_mirrors hPlan hWithin hN).bind ?_
  intro t s₁ hWithin₁
  refine mirrors_get ?_
  have hTensors :
      (s₁.renumber φ ψ).bench.tensors = s₁.bench.tensors := rfl
  rw [hTensors]
  cases s₁.bench.tensors.get? t with
  | none => exact mirrors_throw _
  | some tensor =>
      by_cases hVariable : tensor.layout.IsVariable
      · simp only [if_pos hVariable]
        exact mirrors_pure hWithin₁ t
      · simp only [if_neg hVariable]
        exact malformed_mirrors hPlan hN _

theorem mapM_operand_mirrors
    (hBias : ∀ b ∈ bias, P b) :
    Mirrors P φ ψ (bias.mapM (operand p)) ((bias.map φ).mapM (operand q))
      s := by
  cases bias with
  | none => exact mirrors_pure hWithin _
  | some b =>
      refine (operand_mirrors hPlan hWithin (hBias b rfl)).bind ?_
      intro t s₁ hWithin₁
      exact mirrors_pure hWithin₁ _

theorem activate_mirrors
    (hN : P n)
    (shape : List Nat)
    (acc : TensorId)
    (filling : List Operation) :
    Mirrors P φ ψ (activate p n shape acc filling)
      (activate q (φ n) shape acc filling) s := by
  unfold activate
  rw [hPlan.fused?_map hN]
  cases hFused : p.fused? n with
  | none =>
      refine (result_mirrors hPlan hWithin hN hN shape).bind ?_
      intro output s₁ hWithin₁
      refine (forM_push_mirrors hWithin₁ filling).bind ?_
      intro _ s₂ hWithin₂
      refine (push_mirrors hWithin₂ _).bind ?_
      intro _ s₃ hWithin₃
      exact define_mirrors hWithin₃ hN _ _ _
  | some r =>
      have hR : P r := by
        unfold Plan.fused? at hFused
        split at hFused
        case isTrue =>
          exact hPlan.nodes_mem r (List.mem_of_find?_eq_some hFused)
        case isFalse => cases hFused
      refine (result_mirrors hPlan hWithin hN hR shape).bind ?_
      intro output s₁ hWithin₁
      refine (forM_push_mirrors hWithin₁ filling).bind ?_
      intro _ s₂ hWithin₂
      refine (push_mirrors hWithin₂ _).bind ?_
      intro _ s₃ hWithin₃
      refine (define_mirrors hWithin₃ hR _ _ _).bind ?_
      intro _ s₄ hWithin₄
      exact define_mirrors hWithin₄ hN _ _ _

end

end

------------------------------------------------------------
-- Nodes
------------------------------------------------------------

section

variable (hPlan : p.Renumbers q P φ)
include hPlan

section

variable (hWithin : s.Within P)
include hWithin

theorem constant_mirrors
    (hN : P n)
    (shape : List Nat) :
    Mirrors P φ ψ (constant p n shape) (constant q (φ n) shape) s := by
  unfold constant
  rw [hPlan.name_eq hN]
  refine (checkArity_mirrors hPlan hWithin hN 0).bind ?_
  intro _ s₁ hWithin₁
  refine (checkShape_mirrors hPlan hWithin₁ hN shape).bind ?_
  intro _ s₂ hWithin₂
  have hRest :
      ∀ l (s₃ : Lowering ν), s₃.Within P →
        Mirrors P φ ψ
          (onBench (·.addConstant (p.network.name n) l) >>= fun t =>
            define n t shape true)
          (onBench (·.addConstant (p.network.name n) l) >>= fun t =>
            define (φ n) t shape true) s₃ := by
    intro l s₃ hWithin₃
    refine (onBench_mirrors hWithin₃
    (Workbench.commutes_addHomed ψ _ l _ _)).bind ?_
    intro t s₄ hWithin₄
    exact define_mirrors hWithin₄ hN _ _ _
  have hWeight := hPlan.isWeight_iff hN
  by_cases hIs : p.IsWeight n
  · simp only [if_pos hIs, if_pos (hWeight.mpr hIs)]
    exact (layout_mirrors hPlan hWithin₂ hN _ shape).bind hRest
  · simp only [if_neg hIs, if_neg (mt hWeight.mp hIs)]
    exact (layout_mirrors hPlan hWithin₂ hN _ shape).bind hRest

theorem matMul_mirrors
    {x w : ν}
    (hN : P n)
    (hX : P x)
    (hW : P w)
    (hBias : ∀ b ∈ bias, P b) :
    Mirrors P φ ψ (matMul p n x w bias)
      (matMul q (φ n) (φ x) (φ w) (bias.map φ)) s := by
  unfold matMul
  refine (checkConstant_mirrors hPlan hWithin hN hW).bind ?_
  intro _ s₁ hWithin₁
  refine (option_forM_mirrors hWithin₁ (fun b hB =>
    checkConstant_mirrors hPlan hWithin₁ hN (hBias b hB))).bind ?_
  intro _ s₂ hWithin₂
  refine (value_mirrors hPlan hWithin₂ hX).bind ?_
  intro xv s₃ hWithin₃
  refine (value_mirrors hPlan hWithin₃ hW).bind ?_
  intro wv s₄ hWithin₄
  refine (productShape_mirrors hPlan hWithin₄ hN _ _).bind ?_
  rintro ⟨shape, columns⟩ s₅ hWithin₅
  refine Mirrors.bind (option_forM_mirrors hWithin₅ ?_) ?_
  · intro b hB
    refine (value_mirrors hPlan hWithin₅ (hBias b hB)).bind ?_
    intro v s₆ hWithin₆
    exact refuse_mirrors hPlan hWithin₆ hN _
  intro _ s₆ hWithin₆
  refine (elementwise_mirrors hPlan hWithin₆ hX).bind ?_
  intro input s₇ hWithin₇
  refine (operand_mirrors hPlan hWithin₇ hW).bind ?_
  intro weights s₈ hWithin₈
  refine (mapM_operand_mirrors hPlan hWithin₈ hBias).bind ?_
  intro b s₉ hWithin₉
  refine (accumulator_mirrors hPlan hWithin₉ hN shape).bind ?_
  intro acc s₁₀ hWithin₁₀
  exact activate_mirrors hPlan hWithin₁₀ hN shape acc _

theorem add_mirrors
    {a b : ν}
    (hN : P n)
    (hA : P a)
    (hB : P b) :
    Mirrors P φ ψ (add p n a b) (add q (φ n) (φ a) (φ b)) s := by
  unfold add
  refine (value_mirrors hPlan hWithin hA).bind ?_
  intro av s₁ hWithin₁
  refine (value_mirrors hPlan hWithin₁ hB).bind ?_
  intro bv s₂ hWithin₂
  refine refuse_bind_mirrors hPlan hN ?_
  refine (accumulator_mirrors hPlan hWithin₂ hN _).bind ?_
  intro acc s₃ hWithin₃
  refine (elementwise_mirrors hPlan hWithin₃ hA).bind ?_
  intro first s₄ hWithin₄
  refine (push_mirrors hWithin₄ _).bind ?_
  intro _ s₅ hWithin₅
  refine (elementwise_mirrors hPlan hWithin₅ hB).bind ?_
  intro second s₆ hWithin₆
  refine (push_mirrors hWithin₆ _).bind ?_
  intro _ s₇ hWithin₇
  exact activate_mirrors hPlan hWithin₇ hN _ acc _

theorem relu_mirrors
    {a : ν}
    (hN : P n)
    (hA : P a) :
    Mirrors P φ ψ (relu p n a) (relu q (φ n) (φ a)) s := by
  unfold relu
  refine (value_mirrors hPlan hWithin hA).bind ?_
  intro v s₁ hWithin₁
  refine (elementwise_mirrors hPlan hWithin₁ hA).bind ?_
  intro input s₂ hWithin₂
  refine (accumulator_mirrors hPlan hWithin₂ hN _).bind ?_
  intro acc s₃ hWithin₃
  refine (result_mirrors hPlan hWithin₃ hN hN _).bind ?_
  intro output s₄ hWithin₄
  refine (push_mirrors hWithin₄ _).bind ?_
  intro _ s₅ hWithin₅
  refine (push_mirrors hWithin₅ _).bind ?_
  intro _ s₆ hWithin₆
  exact define_mirrors hWithin₆ hN _ _ _

/- A node that may have its value already. -/
theorem unlessKnown_mirrors
    {x : Lower ν PUnit}
    {y : Lower μ PUnit}
    (hN : P n)
    (hAction : Mirrors P φ ψ x y s) :
    Mirrors P φ ψ
      (do if ((← get).value? n).isNone then x)
      (do if ((← get).value? (φ n)).isNone then y) s := by
  refine mirrors_get ?_
  rw [Lowering.value?_renumber hPlan hWithin hN]
  cases s.value? n with
  | none => exact hAction
  | some v => exact mirrors_pure hWithin _

/- The computation of a node, for each kind of node. -/
theorem compute_mirrors
    (hN : P n) :
    Mirrors P φ ψ (compute p n) (compute q (φ n)) s := by
  have hOperands : ∀ m ∈ p.network.operands n, P m :=
    fun m hMem => hPlan.closed hN hMem
  unfold compute
  rw [hPlan.op_eq hN, hPlan.operands_map hN]
  cases p.network.op n with
  | input shape => exact input_mirrors hPlan hWithin hN shape
  | constant shape => exact constant_mirrors hPlan hWithin hN shape
  | matMul =>
      match p.network.operands n, hOperands with
      | [x, w], hOperands =>
          have hBias : ∀ b ∈ (none : Option ν), P b := by simp
          exact matMul_mirrors hPlan hWithin hN (hOperands x (by simp))
            (hOperands w (by simp)) hBias
      | [x, w, b], hOperands =>
          have hBias : ∀ c ∈ some b, P c := by
            simpa using hOperands b (by simp)
          exact matMul_mirrors hPlan hWithin hN (hOperands x (by simp))
            (hOperands w (by simp)) hBias
      | [], _ => exact malformed_mirrors hPlan hN _
      | [x], _ => exact malformed_mirrors hPlan hN _
      | x :: w :: b :: c :: rest, _ =>
          simp only [List.map_cons, List.length_cons, List.length_map]
          exact malformed_mirrors hPlan hN _
  | add =>
      match p.network.operands n, hOperands with
      | [a, b], hOperands =>
          exact add_mirrors hPlan hWithin hN (hOperands a (by simp))
            (hOperands b (by simp))
      | [], _ => exact checkArity_mirrors hPlan hWithin hN 2
      | [a], _ => exact checkArity_mirrors hPlan hWithin hN 2
      | a :: b :: c :: rest, _ => exact checkArity_mirrors hPlan hWithin hN 2
  | relu =>
      match p.network.operands n, hOperands with
      | [a], hOperands =>
          exact unlessKnown_mirrors hPlan hWithin hN
            (relu_mirrors hPlan hWithin hN (hOperands a (by simp)))
      | [], _ =>
          exact unlessKnown_mirrors hPlan hWithin hN
            (checkArity_mirrors hPlan hWithin hN 1)
      | a :: b :: rest, _ =>
          exact unlessKnown_mirrors hPlan hWithin hN
            (checkArity_mirrors hPlan hWithin hN 1)

theorem finish_mirrors
    (hN : P n) :
    Mirrors P φ ψ (finish p n) (finish q (φ n)) s := by
  have hOutput := hPlan.mem_outputs_iff hN
  unfold finish
  by_cases hMem : n ∈ p.outputs
  · simp only [if_pos hMem, if_pos (hOutput.mpr hMem)]
    refine (operand_mirrors hPlan hWithin hN).bind ?_
    intro t s₁ hWithin₁
    refine (onBench_mirrors hWithin₁
      (Workbench.commutes_exportTensor ψ t)).bind ?_
    intro _ s₂ hWithin₂
    exact push_mirrors hWithin₂ _
  · simp only [if_neg hMem, if_neg (mt hOutput.mp hMem)]
    exact mirrors_pure hWithin _

/- Lowering the nodes of a plan. -/
theorem forM_node_mirrors :
    Mirrors P φ ψ (p.nodes.forM (node p)) (q.nodes.forM (node q)) s := by
  rw [hPlan.nodes_map]
  refine forM_mirrors hWithin ?_
  intro n hMem s₁ hWithin₁
  have hN := hPlan.nodes_mem n hMem
  refine (compute_mirrors hPlan hWithin₁ hN).bind ?_
  intro _ s₂ hWithin₂
  exact finish_mirrors hPlan hWithin₂ hN

end

end

end Lower

/- A plan has its own numbers. -/
theorem Plan.renumbers_id (p : Plan ν) :
    p.Renumbers p (fun _ => True) id where
  inj _ _ hSame := hSame
  closed _ _ := trivial
  name_eq _ := rfl
  op_eq _ := rfl
  operands_map _ := (List.map_id _).symm
  nodes_mem _ _ := trivial
  nodes_map := (List.map_id _).symm
  outputs_mem _ _ := trivial
  outputs_map := (List.map_id _).symm

/- Lowering sees nothing of a machine but the size of its array. -/
theorem lowerNodes_recast
    [DecidableEq ν]
    (ψ : Workbench.Recast)
    (net : Network ν)
    (outputs : List String)
    (nodes : List ν) :
    Workbench.Commutes ψ (lowerNodes net outputs nodes) := by
  intro bench
  simp only [lowerNodes, Plan.ofNodes]
  cases net.roots outputs with
  | error e => rfl
  | ok roots =>
      let p : Plan ν := { network := net, nodes, outputs := roots }
      have hMirrors :
          Lower.Mirrors (fun _ => True) id ψ (nodes.forM (Lower.node p))
            (nodes.forM (Lower.node p)) (Lowering.start bench) :=
        Lower.forM_node_mirrors p.renumbers_id (List.forall_mem_nil _)
      dsimp only
      rcases hMirrors.start_cases with
        ⟨_, s, hRun, hRun'⟩ | ⟨e, s, t, hRun, hRun'⟩
      · rw [hRun, hRun']
        rfl
      · rw [hRun, hRun']
        rfl

end Systolic
