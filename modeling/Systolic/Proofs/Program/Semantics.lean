import Mathlib.Logic.Function.Basic
import Systolic.Proofs.Program.WellFormed

/-
  This file defines what a program computes: its operations are
  executed in order over an environment that gives each tensor
  its value. There are no memories, so nothing is moved off the
  chip or back.

  Key definitions include:
    * `Semantics`
    * `Semantics.step`
    * `Semantics.exec`
    * `Semantics.stores`

  Key theorems include:
    * `Semantics.step_congr`
    * `Semantics.exec_take_of_scratchpad`
    * `Semantics.exec_of_home`
-/

namespace Systolic

variable {V : Type}

/-
  The functions that operations apply. They may depend on the
  tensor that takes the result, and so on its shape.
-/
structure Semantics (V : Type) where
  product : TensorId → V → V → Option V → V
  sum : TensorId → V → V → V
  activate : Activation → TensorId → V → V

/- The tensor whose value an operation changes. -/
def Operation.target : Operation → Option TensorId
| .load t => some t
| .matMul _ _ _ output => some output
| .accumulate _ output _ => some output
| .activate _ output _ => some output
| .store _ => none
| .spill _ => none
| .reload _ => none

namespace Semantics

/-
  The environment after an operation, where a load takes the
  value that a tensor has at home.
-/
def step
    (S : Semantics V)
    (home env : TensorId → V) : Operation → TensorId → V
| .load t => Function.update env t (home t)
| .matMul input weights bias output =>
    Function.update env output
      (S.product output (env input) (env weights) (bias.map env))
| .accumulate input output false =>
    Function.update env output (env input)
| .accumulate input output true =>
    Function.update env output (S.sum output (env output) (env input))
| .activate input output activation =>
    Function.update env output (S.activate activation output (env input))
| .store _ => env
| .spill _ => env
| .reload _ => env

/- The environment after operations in a row. -/
def exec
    (S : Semantics V)
    (home : TensorId → V)
    (ops : List Operation)
    (env : TensorId → V) : TensorId → V :=
  ops.foldl (S.step home) env

/- The tensors that are stored, each with its value at that moment. -/
def stores
    (S : Semantics V)
    (home : TensorId → V) :
    List Operation → (TensorId → V) → List (TensorId × V)
| [], _ => []
| .store t :: ops, env => (t, env t) :: stores S home ops env
| op :: ops, env => stores S home ops (S.step home env op)

------------------------------------------------------------
-- Execution
------------------------------------------------------------

section Execution

variable (S : Semantics V) (home : TensorId → V)
variable {ops : List Operation} {t : TensorId} {op : Operation}

theorem exec_append
    (ops rest : List Operation)
    (env : TensorId → V) :
    S.exec home (ops ++ rest) env =
      S.exec home rest (S.exec home ops env) :=
  List.foldl_append

/- The last operation of a program is executed last. -/
theorem exec_snoc
    (ops : List Operation)
    (op : Operation)
    (env : TensorId → V) :
    S.exec home (ops ++ [op]) env =
      S.step home (S.exec home ops env) op :=
  S.exec_append home ops [op] env

/- What is stored by a program and then by another. -/
theorem stores_append
    (ops rest : List Operation)
    (env : TensorId → V) :
    S.stores home (ops ++ rest) env =
      S.stores home ops env ++
        S.stores home rest (S.exec home ops env) := by
  induction ops generalizing env with
  | nil => rfl
  | cons op ops ih =>
      cases op with
      | store t =>
          simp only [List.cons_append, stores, ih]
          rfl
      | _ =>
          simp only [List.cons_append, stores, ih]
          rfl

/- The last operation of a program stores a tensor or nothing. -/
theorem stores_snoc
    (ops : List Operation)
    (op : Operation)
    (env : TensorId → V) :
    S.stores home (ops ++ [op]) env =
      S.stores home ops env ++
        S.stores home [op] (S.exec home ops env) :=
  S.stores_append home ops [op] env

theorem stores_eq_nil
    (hNone : ∀ t, .store t ∉ ops)
    (env : TensorId → V) :
    S.stores home ops env = [] := by
  induction ops generalizing env with
  | nil => rfl
  | cons op ops ih =>
      have hRest : ∀ t, .store t ∉ ops :=
        fun t hMem => hNone t (List.mem_cons_of_mem _ hMem)
      cases op with
      | store t => exact absurd List.mem_cons_self (hNone t)
      | _ => exact ih hRest _

theorem mem_of_mem_stores
    {env : TensorId → V}
    {x : V}
    (hStore : (t, x) ∈ S.stores home ops env) :
    .store t ∈ ops := by
  induction ops generalizing env with
  | nil => cases hStore
  | cons op ops ih =>
      cases op with
      | store u =>
          rcases List.mem_cons.mp hStore with hFirst | hRest
          · cases hFirst
            exact List.mem_cons_self
          · exact List.mem_cons_of_mem _ (ih hRest)
      | _ => exact List.mem_cons_of_mem _ (ih hStore)

/- An operation changes no tensor but its target. -/
theorem step_of_target_ne
    (hTarget : op.target ≠ some t)
    (env : TensorId → V) :
    S.step home env op t = env t := by
  have hNe : ∀ u, op.target = some u → t ≠ u := by
    rintro u hU rfl
    exact hTarget hU
  cases op with
  | load u => exact Function.update_of_ne (hNe u rfl) _ _
  | matMul input weights bias output =>
      exact Function.update_of_ne (hNe output rfl) _ _
  | accumulate input output add =>
      cases add <;> exact Function.update_of_ne (hNe output rfl) _ _
  | activate input output activation =>
      exact Function.update_of_ne (hNe output rfl) _ _
  | store u => rfl
  | spill u => rfl
  | reload u => rfl

/- The step of an operation of a program is the next one. -/
theorem exec_take_succ
    {i : Nat}
    (hGet : ops[i]? = some op)
    (env : TensorId → V) :
    S.exec home (ops.take (i + 1)) env =
      S.step home (S.exec home (ops.take i) env) op := by
  rw [List.take_add_one, hGet]
  exact S.exec_snoc home (ops.take i) op env

/- A tensor that is no target between two places keeps its value. -/
theorem exec_take_of_idle
    {i k : Nat}
    (hLe : i ≤ k)
    (hIdle :
      ∀ j op, i ≤ j → j < k → ops[j]? = some op →
        op.target ≠ some t)
    (env : TensorId → V) :
    S.exec home (ops.take k) env t = S.exec home (ops.take i) env t := by
  induction hLe with
  | refl => rfl
  | @step k hLe ih =>
      have hBefore := ih (fun j op hFrom hTo =>
        hIdle j op hFrom (Nat.lt_succ_of_lt hTo))
      cases hGet : ops[k]? with
      | none =>
          rw [List.take_add_one, hGet]
          simpa using hBefore
      | some op =>
          rw [S.exec_take_succ home hGet,
            S.step_of_target_ne home (hIdle k op hLe (Nat.lt_succ_self k) hGet),
            hBefore]

/- What an operation computes depends on what it reads. -/
theorem step_congr
    {env env' : TensorId → V}
    (hReads : ∀ u ∈ op.reads, env u = env' u)
    (hTarget : op.target = some t) :
    S.step home env op t = S.step home env' op t := by
  cases op with
  | load u =>
      cases hTarget
      simp [step]
  | matMul input weights bias output =>
      cases hTarget
      have hInput : env input = env' input :=
        hReads input (by simp [Operation.reads, mem_distinct])
      have hWeights : env weights = env' weights :=
        hReads weights (by simp [Operation.reads, mem_distinct])
      have hBias : bias.map env = bias.map env' := by
        apply Option.map_congr
        intro u hU
        exact hReads u (by simp [Operation.reads, mem_distinct, hU])
      simp only [step, Function.update_self, hInput, hWeights, hBias]
  | accumulate input output add =>
      cases hTarget
      have hInput : env input = env' input := by
        apply hReads
        cases add <;> simp [Operation.reads, mem_distinct]
      cases add with
      | false => simp only [step, Function.update_self, hInput]
      | true =>
          have hOutput : env t = env' t :=
            hReads t (by simp [Operation.reads, mem_distinct])
          simp only [step, Function.update_self, hInput, hOutput]
  | activate input output activation =>
      cases hTarget
      have hInput : env input = env' input :=
        hReads input (by simp [Operation.reads])
      simp only [step, Function.update_self, hInput]
  | store u => cases hTarget
  | spill u => cases hTarget
  | reload u => cases hTarget

end Execution

end Semantics

------------------------------------------------------------
-- Targets of Typed Operations
------------------------------------------------------------

section Targets

variable {n : Nat} {table : TensorTable} {op : Operation}
variable {t : TensorId} {tensor : Tensor}

section

variable (hTyped : op.Typed n table)
include hTyped

/- A target in the scratchpad is written, and not only changed. -/
theorem Operation.Typed.writes_of_target
    (hHolds : table.Holds t .scratchpad tensor)
    (hTarget : op.target = some t) :
    op.writes = some t := by
  cases hTyped with
  | @accumulate input output add a b _ hOutput _ =>
      cases hTarget
      cases hHolds.1.symm.trans hOutput.1
      cases hHolds.2.symm.trans hOutput.2
  | store => cases hTarget
  | load => exact hTarget
  | matMul => exact hTarget
  | activate => exact hTarget

theorem Operation.Typed.target_of_writes
    (hWrites : op.writes = some t) :
    op.target = some t := by
  cases hTyped with
  | @accumulate input output add a b =>
      cases add with
      | false => exact hWrites
      | true => cases hWrites
  | store => cases hWrites
  | load => exact hWrites
  | matMul => exact hWrites
  | activate => exact hWrites

/- Only the array changes the accumulator memory. -/
theorem Operation.Typed.compute_of_target
    (hHolds : table.Holds t .accumulator tensor)
    (hTarget : op.target = some t) :
    op.resource = .compute := by
  cases hTyped with
  | load hTensor =>
      cases hTarget
      cases hHolds.1.symm.trans hTensor.1
      cases hHolds.2.symm.trans hTensor.2
  | store => cases hTarget
  | matMul => rfl
  | accumulate => rfl
  | activate => rfl

/- Only the array reads the accumulator memory. -/
theorem Operation.Typed.compute_of_reads
    (hHolds : table.Holds t .accumulator tensor)
    (hReads : t ∈ op.reads) :
    op.resource = .compute := by
  cases hTyped with
  | load => cases hReads
  | store hTensor =>
      cases List.mem_singleton.mp hReads
      cases hHolds.1.symm.trans hTensor.1
      cases hHolds.2.symm.trans hTensor.2
  | matMul => rfl
  | accumulate => rfl
  | activate => rfl

end

/-
  A tensor of the scratchpad has its last value once its writer
  was executed.
-/
theorem Semantics.exec_take_of_scratchpad
    {ops : List Operation}
    {i j : Nat}
    (S : Semantics V)
    (home : TensorId → V)
    (hForm : WellFormed n table ops)
    (hHolds : table.Holds t .scratchpad tensor)
    (hGet : ops[j]? = some op)
    (hWrites : op.writes = some t)
    (hAfter : j < i)
    (env : TensorId → V) :
    S.exec home ops env t = S.exec home (ops.take i) env t := by
  by_cases hInside : i ≤ ops.length
  · have hIdle :
        ∀ k op', i ≤ k → k < ops.length → ops[k]? = some op' →
          op'.target ≠ some t := by
      intro k op' hFrom _ hGet' hTarget
      have hTyped := (hForm k op' hGet').typed
      have hAgain := hTyped.writes_of_target hHolds hTarget
      have hSame := hForm.singleAssignment.writer_unique hGet hGet'
        hWrites hAgain
      omega
    have hRest := S.exec_take_of_idle home hInside hIdle env
    rw [List.take_length] at hRest
    exact hRest
  · rw [List.take_of_length_le (by omega)]

/- A tensor that comes from DRAM has the value that it has there. -/
theorem Semantics.exec_of_home
    {ops : List Operation}
    (S : Semantics V)
    (home : TensorId → V)
    (hForm : WellFormed n table ops)
    (hHolds : table.Holds t .scratchpad tensor)
    (hHome : tensor.home.isSome)
    (hWritten : t ∈ written ops)
    (env : TensorId → V) :
    S.exec home ops env t = home t := by
  rcases List.mem_filterMap.mp hWritten with ⟨writer, hMem, hWrites⟩
  rcases List.mem_iff_getElem?.mp hMem with ⟨j, hGet⟩
  have hTyped := (hForm j writer hGet).typed
  have hLoad : writer = .load t := by
    have hTarget := hTyped.target_of_writes hWrites
    cases hTyped with
    | load => rw [Option.some.inj hWrites]
    | store => cases hWrites
    | matMul _ _ hOutput =>
        cases hTarget
        cases hHolds.1.symm.trans hOutput.1
        cases hHolds.2.symm.trans hOutput.2
    | accumulate _ hOutput =>
        cases hTarget
        cases hHolds.1.symm.trans hOutput.1
        cases hHolds.2.symm.trans hOutput.2
    | activate _ hOutput _ hNone =>
        cases hTarget
        cases hHolds.1.symm.trans hOutput.1
        rw [hNone] at hHome
        cases hHome
  rw [S.exec_take_of_scratchpad home hForm hHolds hGet hWrites
    (Nat.lt_succ_self j), S.exec_take_succ home hGet, hLoad]
  simp only [step, Function.update_self]

end Targets

end Systolic
