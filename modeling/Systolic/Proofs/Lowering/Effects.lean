import Systolic.Proofs.Compile.Admissible
import Systolic.Proofs.Effect.Ensures
import Systolic.Proofs.Tensor.Layout
import Systolic.Proofs.Tensor.Packing
import Systolic.Program.Lowering

/-
  This file describes the steps of lowering by what they do to
  the state.

  Key definitions include:
    * `Lowering.fetch`
    * `Lowering.grow`
    * `Lowering.conclude`

  Key theorems include:
    * `Lower.operand_ensures`
    * `Lower.activate_ensures`
-/

namespace Systolic

variable {ν : Type}

------------------------------------------------------------
-- States
------------------------------------------------------------

namespace Lowering

/- A state after a node that has a value was used. -/
def fetch
    (s : Lowering ν)
    (n : ν)
    (v : Value) : Lowering ν :=
  if v.needsLoad then
    (s.define n { v with needsLoad := false }).push (.load v.tensor)
  else s

/- A state with a new tensor that has no place in DRAM. -/
def grow
    (s : Lowering ν)
    (name : String)
    (layout : VectorLayout)
    (role : TensorRole)
    (kind : MemoryKind) : Lowering ν :=
  { s with bench := (s.bench.addTensor name layout role kind).2 }

/- The number of the next tensor. -/
def next (s : Lowering ν) : TensorId :=
  s.bench.tensors.next

/-
  A state after a result was activated out of an accumulator
  tensor that is filled by some last operations. The result is
  the value of given nodes.
-/
def conclude
    (s : Lowering ν)
    (name : String)
    (layout : VectorLayout)
    (acc : TensorId)
    (filling : List Operation)
    (activation : Activation)
    (holders : List ν) : Lowering ν :=
  let value : Value :=
    { tensor := s.next, shape := layout.shape, needsLoad := false }
  { bench := (s.grow name layout .intermediate .scratchpad).bench
    values := holders.map (fun n => (n, value)) ++ s.values
    program :=
      s.program ++ filling ++ [.activate acc s.next activation] }

section

variable (s : Lowering ν)

/- The last operation that fills the tensor can be pushed before. -/
theorem conclude_cons
    (name : String)
    (layout : VectorLayout)
    (acc : TensorId)
    (op : Operation)
    (activation : Activation)
    (holders : List ν) :
    s.conclude name layout acc [op] activation holders =
      (s.push op).conclude name layout acc [] activation holders := by
  simp [conclude, push, grow, next]

@[simp] theorem bench_push
    (op : Operation) :
    (s.push op).bench = s.bench :=
  rfl

@[simp] theorem bench_fetch
    (n : ν)
    (v : Value) :
    (s.fetch n v).bench = s.bench := by
  unfold fetch
  split <;> rfl

@[simp] theorem machine_grow
    (name : String)
    (layout : VectorLayout)
    (role : TensorRole)
    (kind : MemoryKind) :
    (s.grow name layout role kind).bench.machine = s.bench.machine :=
  rfl

@[simp] theorem value?_push
    [DecidableEq ν]
    (op : Operation)
    (n : ν) :
    (s.push op).value? n = s.value? n :=
  rfl

@[simp] theorem value?_grow
    [DecidableEq ν]
    (name : String)
    (layout : VectorLayout)
    (role : TensorRole)
    (kind : MemoryKind)
    (n : ν) :
    (s.grow name layout role kind).value? n = s.value? n :=
  rfl

end

/- A tensor of a state stays when another one is added. -/
theorem get?_grow
    {s : Lowering ν}
    {t : TensorId}
    {tensor : Tensor}
    (hTensor : s.bench.tensors.get? t = some tensor)
    (name : String)
    (layout : VectorLayout)
    (role : TensorRole)
    (kind : MemoryKind) :
    (s.grow name layout role kind).bench.tensors.get? t =
      some tensor := by
  have hNe := TensorTable.ne_next_of_get? hTensor
  exact (TensorTable.get?_add _ _ t).trans (by rw [if_neg hNe, hTensor])

theorem value?_define
    [DecidableEq ν]
    (s : Lowering ν)
    (n m : ν)
    (v : Value) :
    (s.define n v).value? m =
      if m = n then some v else s.value? m := by
  by_cases hSame : m = n
  · simp [define, value?, hSame]
  · simp [define, value?, hSame, Ne.symm hSame]

end Lowering

namespace Plan

variable [DecidableEq ν]

/- The activation that ends the computation of a product or sum. -/
def activation
    (p : Plan ν)
    (n : ν) : Activation :=
  if (p.fused? n).isSome then .relu else .identity

/- The nodes whose value the result of a product or sum is. -/
def holders
    (p : Plan ν)
    (n : ν) : List ν :=
  n :: (p.fused? n).toList

/-
  The names of the tensors of a node: its accumulator tensor is
  marked, and its value is named after a node that holds it.
-/
inductive Names
    (p : Plan ν)
    (n : ν) : String → Prop
| accumulator : Names p n (p.network.name n ++ ".acc")
| holder {k : ν}
    (hHolder : k ∈ p.holders n) :
    Names p n (p.network.name k)

/- A rectifier is fused into its only operand. -/
theorem fused?_eq_some
    {p : Plan ν}
    {n r : ν}
    (hFused : p.fused? n = some r) :
    p.Fusible n ∧ r ∈ p.nodes ∧ p.network.op r = .relu ∧
      p.network.operands r = [n] := by
  unfold fused? at hFused
  split at hFused
  case isTrue hFusible =>
    have hRelu := List.find?_some hFused
    exact ⟨hFusible, List.mem_of_find?_eq_some hFused,
      of_decide_eq_true hRelu⟩
  case isFalse => cases hFused

end Plan

namespace Lower

variable {p : Plan ν} {s : Lowering ν} {m : Machine}
variable {n : ν} {shape : List Nat}

------------------------------------------------------------
-- Failures, Programs and Tensors
------------------------------------------------------------

theorem malformed_ensures
    {α : Type}
    {fault : NodeFault}
    {Q : α → Lowering ν → Prop} :
    Ensures (malformed p n fault) s (·.Admissible m) Q :=
  .graph _

theorem forM_push_ensures
    (ops : List Operation) :
    Ensures (ops.forM push) s (·.Admissible m)
      (fun _ s' => s' = { s with program := s.program ++ ops }) := by
  induction ops generalizing s with
  | nil => simp [ensures_pure]
  | cons op ops ih =>
      refine Ensures.bind
        (R := fun _ s' => s' = s.push op) rfl ?_
      rintro _ s' rfl
      refine ih.weaken ?_
      rintro _ s' rfl
      simp [Lowering.push]

/- A shape has its layout, or it is too large. -/
theorem layout_ensures
    {make : List Nat → Nat → Except LayoutFault VectorLayout}
    (hMake :
      ∀ fault, make shape s.bench.machine.arraySize = .error fault →
        fault = .tooLarge) :
    Ensures (layout make p n shape) s (·.Admissible m)
      (fun l s' =>
        make shape s.bench.machine.arraySize = .ok l ∧ s' = s) := by
  simp only [layout, ensures_bind, ensures_get]
  cases hLayout : make shape s.bench.machine.arraySize with
  | ok l => exact ⟨rfl, rfl⟩
  | error fault =>
      cases hMake fault hLayout
      exact malformed_ensures

theorem variableLayout_ensures
    (hSize : 0 < s.bench.machine.arraySize) :
    Ensures (layout VectorLayout.ofVariable p n shape) s (·.Admissible m)
      (fun l s' =>
        VectorLayout.ofVariable shape s.bench.machine.arraySize = .ok l ∧
          s' = s) :=
  layout_ensures (fun _ => VectorLayout.ofVariable_error hSize)

/- A new accumulator tensor for a shape. -/
theorem accumulator_ensures
    [DecidableEq ν]
    (hSize : 0 < s.bench.machine.arraySize) :
    Ensures (accumulator p n shape) s (·.Admissible m)
      (fun t s' =>
        ∃ l name,
          VectorLayout.ofVariable shape s.bench.machine.arraySize =
              .ok l ∧
            p.Names n name ∧
            t = s.next ∧
            s' = s.grow name l .accumulator .accumulator) := by
  refine (variableLayout_ensures hSize).bind ?_
  rintro l s' ⟨hLayout, rfl⟩
  exact ⟨l, _, hLayout, .accumulator, rfl, rfl⟩

theorem result_ensures
    {named : ν}
    (hSize : 0 < s.bench.machine.arraySize) :
    Ensures (result p n named shape) s (·.Admissible m)
      (fun t s' =>
        ∃ l,
          VectorLayout.ofVariable shape s.bench.machine.arraySize =
              .ok l ∧
            t = s.next ∧
            s' = s.grow (p.network.name named) l .intermediate
              .scratchpad) := by
  refine (variableLayout_ensures hSize).bind ?_
  rintro l s' ⟨hLayout, rfl⟩
  exact ⟨l, hLayout, rfl, rfl⟩

------------------------------------------------------------
-- Operands
------------------------------------------------------------

variable [DecidableEq ν]

theorem value_ensures
    (n : ν) :
    Ensures (value p n) s (·.Admissible m)
      (fun v s' => s.value? n = some v ∧ s' = s) := by
  simp only [value, ensures_bind, ensures_get]
  cases hValue : s.value? n with
  | none => exact malformed_ensures
  | some v => exact ⟨rfl, rfl⟩

/- An operand is loaded if it was not yet. -/
theorem operand_ensures
    (n : ν) :
    Ensures (operand p n) s (·.Admissible m)
      (fun t s' =>
        ∃ v, s.value? n = some v ∧ t = v.tensor ∧ s' = s.fetch n v) := by
  refine (value_ensures n).bind ?_
  rintro v s' ⟨hValue, rfl⟩
  unfold Lowering.fetch
  by_cases hLoad : v.needsLoad = true
  · simp only [hLoad, if_true, ensures_bind]
    exact ⟨v, hValue, rfl, by simp [hLoad]⟩
  · simp only [hLoad]
    exact ⟨v, hValue, rfl, by simp [hLoad]⟩

/- An operand whose tensor is known is laid out as a variable. -/
theorem elementwise_ensures
    (hKnown :
      ∀ v, s.value? n = some v →
        ∃ tensor, s.bench.tensors.get? v.tensor = some tensor) :
    Ensures (elementwise p n) s (·.Admissible m)
      (fun t s' =>
        ∃ v tensor, s.value? n = some v ∧ t = v.tensor ∧
          s' = s.fetch n v ∧
          s.bench.tensors.get? t = some tensor ∧
          tensor.layout.IsVariable) := by
  refine (operand_ensures n).bind ?_
  rintro t s' ⟨v, hValue, rfl, rfl⟩
  rcases hKnown v hValue with ⟨tensor, hTensor⟩
  simp only [ensures_bind, ensures_get, Lowering.bench_fetch, hTensor]
  by_cases hVariable : tensor.layout.IsVariable
  · rw [if_pos hVariable]
    exact ⟨v, tensor, hValue, rfl, rfl, hTensor, hVariable⟩
  · rw [if_neg hVariable]
    exact malformed_ensures

------------------------------------------------------------
-- Activation
------------------------------------------------------------

/- The accumulator tensor of a product or sum is activated. -/
theorem activate_ensures
    {acc : TensorId}
    {filling : List Operation}
    (hSize : 0 < s.bench.machine.arraySize) :
    Ensures (activate p n shape acc filling) s (·.Admissible m)
      (fun _ s' =>
        ∃ l name,
          VectorLayout.ofVariable shape s.bench.machine.arraySize =
              .ok l ∧
            p.Names n name ∧
            s' = s.conclude name l acc filling (p.activation n)
              (p.holders n)) := by
  unfold activate
  cases hFused : p.fused? n with
  | none =>
      refine (result_ensures hSize).bind ?_
      rintro t s' ⟨l, hLayout, rfl, rfl⟩
      refine (forM_push_ensures filling).bind ?_
      rintro _ s' rfl
      refine ⟨l, _, hLayout, .holder List.mem_cons_self, ?_⟩
      simp [Lowering.conclude, Plan.activation, Plan.holders, hFused,
        Lowering.define, Lowering.push, Lowering.grow,
        (VectorLayout.ofVariable_ok hLayout).1]
  | some relu =>
      have hHolder : relu ∈ p.holders n := by
        simp [Plan.holders, hFused]
      refine (result_ensures hSize).bind ?_
      rintro t s' ⟨l, hLayout, rfl, rfl⟩
      refine (forM_push_ensures filling).bind ?_
      rintro _ s' rfl
      refine ⟨l, _, hLayout, .holder hHolder, ?_⟩
      simp [Lowering.conclude, Plan.activation, Plan.holders, hFused,
        Lowering.define, Lowering.push, Lowering.grow,
        (VectorLayout.ofVariable_ok hLayout).1]

end Lower

end Systolic
