import Systolic.Proofs.Lowering.Effects

/-
  This file describes the lowering of one node by what it does
  to the state, for each kind of node.

  Key definitions include:
    * `Lowering.Fetches`
    * `Lowering.Computes`
    * `Lowering.Exports`

  Key theorems include:
    * `Lower.compute_ensures`
    * `Lower.finish_ensures`
-/

namespace Systolic

variable {ν : Type}

------------------------------------------------------------
-- What a Node Adds
------------------------------------------------------------

namespace Lowering

/- A state with a new input or constant. -/
def source
    (s : Lowering ν)
    (n : ν)
    (name : String)
    (layout : VectorLayout)
    (role : TensorRole)
    (bank : DramBank) : Lowering ν :=
  let grown := s.grow name layout role .scratchpad
  { grown with
    bench := grown.bench.reserved s.next .home bank layout.depth
    values :=
      (n, { tensor := s.next, shape := layout.shape, needsLoad := true })
        :: s.values }

end Lowering

namespace Lower

variable {p : Plan ν} {s : Lowering ν} {m : Machine}
variable {n : ν}

theorem checkArity_ensures
    {arity : Nat} :
    Ensures (checkArity p n arity) s (·.Admissible m)
      (fun _ s' =>
        (p.network.operands n).length = arity ∧ s' = s) := by
  unfold checkArity
  by_cases hArity : (p.network.operands n).length = arity
  · simp [hArity]
  · simp only [hArity, ne_eq, not_false_eq_true, if_true]
    exact malformed_ensures

theorem checkShape_ensures
    {shape : List Nat} :
    Ensures (checkShape p n shape) s (·.Admissible m)
      (fun _ s' => IsShape shape ∧ s' = s) := by
  unfold checkShape IsShape
  by_cases hShape : shape = [] ∨ 0 ∈ shape
  · rw [if_pos hShape]
    exact malformed_ensures
  · rw [if_neg hShape]
    exact ⟨not_or.mp hShape, rfl⟩

/- A new tensor gets its home in a bank. -/
theorem addHomed_ensures
    {name : String}
    {layout : VectorLayout}
    {role : TensorRole}
    {bank : DramBank} :
    Ensures
      (do
        let t ← onBench (fun w => w.addHomed name layout role bank)
        define n t layout.shape true : Lower ν Unit)
      s (·.Admissible m)
      (fun _ s' =>
        s.bench.dram.used bank + layout.depth < Count.limit ∧
          s' = s.source n name layout role bank) := by
  have hGet :
      (s.bench.addTensor name layout role .scratchpad).2.tensors.get?
          s.next =
        some
          { name, layout, role, kind := .scratchpad
            home := none, exported := none, spilled := none } := by
    simp only [Workbench.addTensor, Lowering.next,
      TensorTable.get?_add, if_true]
  simp only [ensures_bind, onBench, ensures_get,
    Workbench.addHomed]
  rcases Workbench.reserveSlot_cases hGet .home bank with
    ⟨overflow, hOverflow, hReserve⟩ | ⟨hFits, hReserve⟩
  · simp only [Lowering.next, Workbench.addTensor] at hReserve ⊢
    rw [hReserve]
    exact .beyondCounts overflow hOverflow
  · simp only [Lowering.next, Workbench.addTensor] at hReserve ⊢
    rw [hReserve]
    exact ⟨hFits, rfl⟩

theorem checkConstant_ensures
    {n c : ν} :
    Ensures (checkConstant p n c) s (·.Admissible m)
      (fun _ s' => (p.network.op c).IsConstant ∧ s' = s) := by
  unfold checkConstant
  by_cases hConstant : (p.network.op c).IsConstant
  · simp [hConstant]
  · simp only [hConstant, not_false_eq_true, if_true]
    exact malformed_ensures

theorem productShape_ensures
    {x w : List Nat} :
    Ensures (productShape p n x w) s (·.Admissible m)
      (fun result s' =>
        ∃ k columns, w = [k, columns] ∧ x.getLast? = some k ∧
          result = (x.dropLast ++ [columns], columns) ∧ s' = s) := by
  unfold productShape
  split
  case h_1 k columns =>
    cases hInner : x.getLast? with
    | none => exact malformed_ensures
    | some inner =>
        by_cases hSame : inner = k
        · subst hSame
          simp only [if_true]
          exact ⟨inner, columns, rfl, rfl, rfl, rfl⟩
        · simp only [hSame, if_false]
          exact malformed_ensures
  case h_2 => exact malformed_ensures

/- A check of an operand that may be missing. -/
theorem forM_option_ensures
    {bias : Option ν}
    {check : ν → Lower ν PUnit}
    {P : ν → Prop}
    (hCheck :
      ∀ b, Ensures (check b) s (·.Admissible m)
        (fun _ s' => P b ∧ s' = s)) :
    Ensures (bias.forM check) s (·.Admissible m)
      (fun _ s' => (∀ b ∈ bias, P b) ∧ s' = s) := by
  cases bias with
  | none => exact ⟨by simp, rfl⟩
  | some b =>
      refine (hCheck b).weaken ?_
      rintro _ s' ⟨hB, rfl⟩
      exact ⟨by simpa using hB, rfl⟩

end Lower

variable [DecidableEq ν]

/- The layout of an input or a constant. -/
def Plan.sourceLayout
    (p : Plan ν)
    (n : ν)
    (shape : List Nat)
    (size : Nat) : Except LayoutFault VectorLayout :=
  if (p.network.op n).IsConstant ∧ p.IsWeight n then
    VectorLayout.ofConstant shape size
  else VectorLayout.ofVariable shape size

namespace Lowering

variable {s : Lowering ν}

/- Nodes that have values are used one after the other. -/
inductive Fetches :
    Lowering ν → List ν → List TensorId → Lowering ν → Prop
| nil {s : Lowering ν} : Fetches s [] [] s
| cons {s s' : Lowering ν} {n : ν} {v : Value}
    {ns : List ν} {ts : List TensorId}
    (hValue : s.value? n = some v)
    (hRest : Fetches (s.fetch n v) ns ts s') :
    Fetches s (n :: ns) (v.tensor :: ts) s'

theorem Fetches.bench_eq
    {s' : Lowering ν}
    {ns : List ν}
    {ts : List TensorId}
    (hFetches : s.Fetches ns ts s') :
    s'.bench = s.bench := by
  induction hFetches with
  | nil => rfl
  | cons hValue hRest ih => rw [ih, bench_fetch]

/- The tensor of a number is laid out as a variable. -/
def LiesFlat
    (s : Lowering ν)
    (t : TensorId) : Prop :=
  ∃ tensor,
    s.bench.tensors.get? t = some tensor ∧ tensor.layout.IsVariable

/-
  What the computation of a node does to a state. A sum makes
  its accumulator tensor before it uses its operands.
-/
inductive Computes
    (p : Plan ν)
    (n : ν)
    (s : Lowering ν) : Lowering ν → Prop
| source {shape : List Nat} {layout : VectorLayout}
    {name : String} {role : TensorRole} {bank : DramBank}
    (hOp :
      p.network.op n = .input shape ∨ p.network.op n = .constant shape)
    (hShape : IsShape shape)
    (hLayout :
      p.sourceLayout n shape s.bench.machine.arraySize = .ok layout)
    (hFits : s.bench.dram.used bank + layout.depth < Count.limit)
    (hBank : role.bank? .home = some bank)
    (hLeaf : p.network.operands n = [])
    (hName : p.Names n name) :
    Computes p n s (s.source n name layout role bank)
| product {x w : ν} {bias : Option ν} {xv wv : Value}
    {k columns : Nat} {tx tw : TensorId} {tb : Option TensorId}
    {s₁ : Lowering ν} {layout : VectorLayout} {name name' : String}
    (hOp : p.network.op n = .matMul)
    (hOperands : p.network.operands n = x :: w :: bias.toList)
    (hWeights : (p.network.op w).IsConstant)
    (hBias :
      ∀ b ∈ bias, (p.network.op b).IsConstant ∧
        ∃ v, s.value? b = some v ∧ v.shape = [columns])
    (hX : s.value? x = some xv)
    (hW : s.value? w = some wv)
    (hMatrix : wv.shape = [k, columns])
    (hInner : xv.shape.getLast? = some k)
    (hFetches :
      s.Fetches (x :: w :: bias.toList) (tx :: tw :: tb.toList) s₁)
    (hFlat : s.LiesFlat tx)
    (hLayout :
      VectorLayout.ofVariable (xv.shape.dropLast ++ [columns])
        s.bench.machine.arraySize = .ok layout)
    (hName : p.Names n name)
    (hName' : p.Names n name') :
    Computes p n s
      ((s₁.grow name layout .accumulator .accumulator).conclude name'
        layout s₁.next [.matMul tx tw tb s₁.next] (p.activation n)
        (p.holders n))
| sum {a b : ν} {av bv bv' : Value} {layout : VectorLayout}
    {name name' : String} {s₁ s₂ : Lowering ν}
    (hOp : p.network.op n = .add)
    (hOperands : p.network.operands n = [a, b])
    (hA : s.value? a = some av)
    (hB : s.value? b = some bv)
    (hShapes : av.shape = bv.shape)
    (hLayout :
      VectorLayout.ofVariable av.shape s.bench.machine.arraySize =
        .ok layout)
    (hFirst :
      s₁ = ((s.grow name layout .accumulator .accumulator).fetch a av).push
        (.accumulate av.tensor s.next false))
    (hB' : s₁.value? b = some bv')
    (hSame : bv'.tensor = bv.tensor ∧ bv'.shape = bv.shape)
    (hSecond :
      s₂ = (s₁.fetch b bv').push (.accumulate bv'.tensor s.next true))
    (hFlat : s.LiesFlat av.tensor)
    (hFlat' : s.LiesFlat bv.tensor)
    (hName : p.Names n name)
    (hName' : p.Names n name') :
    Computes p n s
      (s₂.conclude name' layout s.next [] (p.activation n) (p.holders n))
| rectifier {a : ν} {v : Value} {layout : VectorLayout}
    {name name' : String} {s₁ : Lowering ν}
    (hOp : p.network.op n = .relu)
    (hOperands : p.network.operands n = [a])
    (hNew : s.value? n = none)
    (hA : s.value? a = some v)
    (hLayout :
      VectorLayout.ofVariable v.shape s.bench.machine.arraySize =
        .ok layout)
    (hFirst :
      s₁ = (s.fetch a v).grow name layout .accumulator .accumulator)
    (hFlat : s.LiesFlat v.tensor)
    (hName : p.Names n name)
    (hName' : p.Names n name') :
    Computes p n s
      (s₁.conclude name' layout s.next
        [.accumulate v.tensor s.next false] .relu [n])
| known
    (hOp : p.network.op n = .relu)
    (hValue : (s.value? n).isSome) :
    Computes p n s s

/-
  What a request for the value of a node does to a state: the
  value is used, gets a place for the host and is stored there.
-/
inductive Exports
    (n : ν)
    (s : Lowering ν) : Lowering ν → Prop
| again {v : Value} {tensor : Tensor}
    (hValue : s.value? n = some v)
    (hTensor : s.bench.tensors.get? v.tensor = some tensor)
    (hExported : tensor.exported.isSome) :
    Exports n s ((s.fetch n v).push (.store v.tensor))
| first {v : Value} {tensor : Tensor}
    (hValue : s.value? n = some v)
    (hTensor : s.bench.tensors.get? v.tensor = some tensor)
    (hNew : tensor.exported = none)
    (hFits :
      s.bench.dram.used .dram0 + tensor.layout.depth < Count.limit) :
    Exports n s
      (({ s.fetch n v with
          bench := s.bench.reserved v.tensor .exported .dram0
            tensor.layout.depth } : Lowering ν).push (.store v.tensor))

/- Every value has a tensor. -/
def Known (s : Lowering ν) : Prop :=
  ∀ n v, s.value? n = some v →
    ∃ tensor, s.bench.tensors.get? v.tensor = some tensor

/- Using a node changes whether it has to be loaded. -/
theorem value?_fetch
    {n : ν}
    {v : Value}
    (hValue : s.value? n = some v)
    (m : ν) :
    (s.fetch n v).value? m =
      if m = n then some { v with needsLoad := false }
      else s.value? m := by
  unfold fetch
  split
  case isTrue => exact value?_define s n m _
  case isFalse hLoad =>
    split
    case isTrue hSame =>
      rcases v with ⟨t, shape, needsLoad⟩
      simp only [Bool.not_eq_true] at hLoad
      subst hLoad
      rw [hSame, hValue]
    case isFalse => rfl

theorem Known.fetch
    {n : ν}
    {v : Value}
    (hKnown : s.Known)
    (hValue : s.value? n = some v) :
    (s.fetch n v).Known := by
  intro m u hU
  rw [value?_fetch hValue] at hU
  rw [bench_fetch]
  split at hU
  · cases hU
    exact hKnown n v hValue
  · exact hKnown m u hU

end Lowering

namespace Lower

variable {p : Plan ν} {s : Lowering ν} {m : Machine}
variable {n : ν}

------------------------------------------------------------
-- Nodes
------------------------------------------------------------

theorem input_ensures
    {shape : List Nat}
    (hSize : 0 < s.bench.machine.arraySize)
    (hOp : p.network.op n = .input shape) :
    Ensures (input p n shape) s (·.Admissible m)
      (fun _ s' => s.Computes p n s') := by
  refine checkArity_ensures.bind ?_
  rintro _ s' ⟨hArity, rfl⟩
  have hLeaf := List.length_eq_zero_iff.mp hArity
  refine checkShape_ensures.bind ?_
  rintro _ s' ⟨hShape, rfl⟩
  refine (variableLayout_ensures hSize).bind ?_
  rintro l s' ⟨hLayout, rfl⟩
  have hSame := (VectorLayout.ofVariable_ok hLayout).1
  have hSource :
      p.sourceLayout n shape s'.bench.machine.arraySize = .ok l := by
    rw [Plan.sourceLayout, if_neg, hLayout]
    rintro ⟨hConstant, -⟩
    rw [hOp] at hConstant
    exact hConstant
  rw [← hSame]
  refine addHomed_ensures.weaken ?_
  rintro _ s' ⟨hFits, rfl⟩
  exact .source (.inl hOp) hShape hSource hFits rfl hLeaf
    (.holder List.mem_cons_self)

theorem constant_ensures
    {shape : List Nat}
    (hSize : 0 < s.bench.machine.arraySize)
    (hOp : p.network.op n = .constant shape) :
    Ensures (constant p n shape) s (·.Admissible m)
      (fun _ s' => s.Computes p n s') := by
  refine checkArity_ensures.bind ?_
  rintro _ s' ⟨hArity, rfl⟩
  have hLeaf := List.length_eq_zero_iff.mp hArity
  refine checkShape_ensures.bind ?_
  rintro _ s' ⟨hShape, rfl⟩
  have hConstant : (p.network.op n).IsConstant := by
    rw [hOp]
    trivial
  have hRest :
      ∀ l,
        p.sourceLayout n shape s'.bench.machine.arraySize = .ok l →
        l.shape = shape →
          Ensures
            (do
              let t ← onBench (·.addConstant (p.network.name n) l)
              define n t shape true : Lower ν Unit)
            s' (·.Admissible m) (fun _ s'' => s'.Computes p n s'') := by
    intro l hLayout hSame
    rw [← hSame]
    refine addHomed_ensures.weaken ?_
    rintro _ s'' ⟨hFits, rfl⟩
    exact .source (.inr hOp) hShape hLayout hFits rfl hLeaf
      (.holder List.mem_cons_self)
  by_cases hWeight : p.IsWeight n
  · simp only [hWeight, if_true]
    refine (layout_ensures
      (fun _ => VectorLayout.ofConstant_error hSize)).bind ?_
    rintro l s'' ⟨hLayout, rfl⟩
    apply hRest
    · rw [Plan.sourceLayout, if_pos ⟨hConstant, hWeight⟩, hLayout]
    · exact (VectorLayout.ofConstant_ok hSize hShape hLayout).1
  · simp only [hWeight, if_false]
    refine (variableLayout_ensures hSize).bind ?_
    rintro l s'' ⟨hLayout, rfl⟩
    apply hRest
    · rw [Plan.sourceLayout, if_neg (fun h => hWeight h.2), hLayout]
    · exact (VectorLayout.ofVariable_ok hLayout).1

theorem mapM_operand_ensures
    {bias : Option ν} :
    Ensures (bias.mapM (operand p)) s (·.Admissible m)
      (fun tb s' => s.Fetches bias.toList tb.toList s') := by
  cases bias with
  | none => exact .nil
  | some b =>
      refine (operand_ensures b).bind ?_
      rintro t s' ⟨v, hValue, rfl, rfl⟩
      exact .cons hValue .nil

section

variable (hSize : 0 < s.bench.machine.arraySize)
include hSize

theorem matMul_ensures
    {x w : ν}
    {bias : Option ν}
    (hKnown : s.Known)
    (hOp : p.network.op n = .matMul)
    (hOperands : p.network.operands n = x :: w :: bias.toList) :
    Ensures (matMul p n x w bias) s (·.Admissible m)
      (fun _ s' => s.Computes p n s') := by
  refine checkConstant_ensures.bind ?_
  rintro _ s' ⟨hWeights, rfl⟩
  refine (forM_option_ensures
    (fun b => checkConstant_ensures)).bind ?_
  rintro _ s' ⟨hConstants, rfl⟩
  refine (value_ensures x).bind ?_
  rintro xv s' ⟨hX, rfl⟩
  refine (value_ensures w).bind ?_
  rintro wv s' ⟨hW, rfl⟩
  refine productShape_ensures.bind ?_
  rintro _ s' ⟨k, columns, hMatrix, hInner, rfl, rfl⟩
  refine Ensures.bind (forM_option_ensures
    (P := fun b =>
      ∃ v, s'.value? b = some v ∧ v.shape = [columns]) ?_) ?_
  · intro b
    refine (value_ensures b).bind ?_
    rintro v s'' ⟨hB, rfl⟩
    by_cases hShape : v.shape = [columns]
    · simp only [hShape, ne_eq, not_true_eq_false, if_false]
      exact ⟨⟨v, hB, hShape⟩, rfl⟩
    · simp only [hShape, ne_eq, not_false_eq_true, if_true]
      exact malformed_ensures
  rintro _ s'' ⟨hShapes, rfl⟩
  refine (elementwise_ensures (hKnown x)).bind ?_
  rintro tx s₁ ⟨v, tensor, hX', rfl, rfl, hTensor, hVariable⟩
  refine (operand_ensures w).bind ?_
  rintro tw s₂ ⟨v', hW', rfl, rfl⟩
  refine mapM_operand_ensures.bind ?_
  intro tb s₃ hFetches
  have hAll :
      s''.Fetches (x :: w :: bias.toList)
        (v.tensor :: v'.tensor :: tb.toList) s₃ :=
    .cons hX' (.cons hW' hFetches)
  have hBench : s₃.bench = s''.bench := hAll.bench_eq
  have hSize' : 0 < s₃.bench.machine.arraySize := hBench ▸ hSize
  refine (accumulator_ensures hSize').bind ?_
  rintro acc s₄ ⟨l, name, hLayout, hName, rfl, rfl⟩
  refine (activate_ensures
    (s := s₃.grow name l .accumulator .accumulator) hSize').weaken ?_
  rintro _ s₅ ⟨l', name', hLayout', hName', rfl⟩
  cases hLayout'.symm.trans hLayout
  rw [hBench] at hLayout
  exact .product hOp hOperands hWeights
    (fun b hMem => ⟨hConstants b hMem, hShapes b hMem⟩)
    hX hW hMatrix hInner hAll ⟨tensor, hTensor, hVariable⟩ hLayout
    hName hName'

theorem add_ensures
    {a b : ν}
    (hKnown : s.Known)
    (hOp : p.network.op n = .add)
    (hOperands : p.network.operands n = [a, b]) :
    Ensures (add p n a b) s (·.Admissible m)
      (fun _ s' => s.Computes p n s') := by
  refine (value_ensures a).bind ?_
  rintro av s' ⟨hA, rfl⟩
  refine (value_ensures b).bind ?_
  rintro bv s' ⟨hB, rfl⟩
  by_cases hShapes : av.shape = bv.shape
  case neg =>
    simp only [hShapes, ne_eq, not_false_eq_true, if_true]
    exact malformed_ensures
  case pos =>
    simp only [hShapes, ne_eq, not_true_eq_false, if_false]
    rw [← hShapes]
    refine (accumulator_ensures hSize).bind ?_
    rintro acc s₀ ⟨l, name, hLayout, hName, rfl, rfl⟩
    have hKnown' :
        (s'.grow name l .accumulator .accumulator).Known := by
      intro c v hValue
      rcases hKnown c v hValue with ⟨tensor, hTensor⟩
      exact ⟨tensor, Lowering.get?_grow hTensor _ _ _ _⟩
    have hFlat :
        ∀ c v tensor, s'.value? c = some v →
          (s'.grow name l .accumulator
            .accumulator).bench.tensors.get? v.tensor = some tensor →
          tensor.layout.IsVariable →
            s'.LiesFlat v.tensor := by
      intro c v tensor hValue hTensor hVariable
      rcases hKnown c v hValue with ⟨old, hOld⟩
      rw [Lowering.get?_grow hOld] at hTensor
      exact ⟨tensor, hOld.trans hTensor, hVariable⟩
    refine (elementwise_ensures (hKnown' a)).bind ?_
    rintro ta s₁ ⟨v, tensor, hA', rfl, rfl, hTensor, hVariable⟩
    cases hA.symm.trans hA'
    have hFlatA := hFlat a av tensor hA hTensor hVariable
    have hKnown'' := hKnown'.fetch hA'
    simp only [ensures_bind, push, ensures_modify]
    refine (elementwise_ensures
      (s := ((s'.grow name l .accumulator .accumulator).fetch a av).push
        (.accumulate av.tensor s'.next false)) (hKnown'' b)).weaken ?_
    rintro tb s₂ ⟨v', tensor', hB', rfl, rfl, hTensor', hVariable'⟩
    have hSame : v'.tensor = bv.tensor ∧ v'.shape = bv.shape := by
      rw [Lowering.value?_push, Lowering.value?_fetch hA'] at hB'
      split at hB'
      case isTrue hSame =>
        subst hSame
        cases hB'
        cases hA.symm.trans hB
        exact ⟨rfl, rfl⟩
      case isFalse =>
        cases hB.symm.trans hB'
        exact ⟨rfl, rfl⟩
    have hFlatB : s'.LiesFlat bv.tensor := by
      refine hFlat b bv tensor' hB ?_ hVariable'
      rw [← hSame.1]
      simpa only [Lowering.bench_push, Lowering.bench_fetch] using hTensor'
    refine (activate_ensures (p := p) (n := n) ?_).weaken ?_
    · simpa only [Lowering.bench_push, Lowering.bench_fetch,
        Lowering.machine_grow] using hSize
    · rintro _ s₃ ⟨l', name', hLayout', hName', rfl⟩
      simp only [Lowering.bench_push, Lowering.bench_fetch,
        Lowering.machine_grow] at hLayout'
      cases hLayout'.symm.trans hLayout
      exact .sum hOp hOperands hA hB hShapes hLayout rfl hB' hSame rfl
        hFlatA hFlatB hName hName'

theorem relu_ensures
    {a : ν}
    (hKnown : s.Known)
    (hOp : p.network.op n = .relu)
    (hOperands : p.network.operands n = [a])
    (hNew : s.value? n = none) :
    Ensures (relu p n a) s (·.Admissible m)
      (fun _ s' => s.Computes p n s') := by
  refine (value_ensures a).bind ?_
  rintro v s' ⟨hA, rfl⟩
  refine (elementwise_ensures (hKnown a)).bind ?_
  rintro t s₁ ⟨v', tensor, hA', rfl, rfl, hTensor, hVariable⟩
  cases hA.symm.trans hA'
  have hSize' : 0 < (s'.fetch a v).bench.machine.arraySize := by
    simpa only [Lowering.bench_fetch] using hSize
  refine (accumulator_ensures hSize').bind ?_
  rintro acc s₂ ⟨l, name, hLayout, hName, rfl, rfl⟩
  refine (result_ensures
    (s := (s'.fetch a v).grow name l .accumulator .accumulator)
    hSize').bind ?_
  rintro out s₃ ⟨l', hLayout', rfl, rfl⟩
  cases hLayout'.symm.trans hLayout
  rw [Lowering.bench_fetch] at hLayout
  have hComputes :
      s'.Computes p n
        (((s'.fetch a v).grow name l .accumulator
          .accumulator).conclude (p.network.name n) l s'.next
            [.accumulate v.tensor s'.next false] .relu [n]) :=
    .rectifier hOp hOperands hNew hA hLayout rfl
      ⟨tensor, hTensor, hVariable⟩ hName (.holder List.mem_cons_self)
  have hNext : (s'.fetch a v).next = s'.next := by
    simp only [Lowering.next, Lowering.bench_fetch]
  have hShape := (VectorLayout.ofVariable_ok hLayout).1
  simp only [ensures_bind, push, define, ensures_modify]
  convert hComputes using 1
  simp [Lowering.conclude, Lowering.define, Lowering.push,
    Lowering.grow, hNext, hShape]

/- The computation of a node does what is said of its kind. -/
theorem compute_ensures
    (hKnown : s.Known) :
    Ensures (compute p n) s (·.Admissible m)
      (fun _ s' => s.Computes p n s') := by
  unfold compute
  split
  case h_1 shape _ hOp => exact input_ensures hSize hOp
  case h_2 shape _ hOp => exact constant_ensures hSize hOp
  case h_3 x w hOp hOperands =>
    exact matMul_ensures hSize hKnown hOp hOperands
  case h_4 x w b hOp hOperands =>
    exact matMul_ensures hSize hKnown hOp hOperands
  case h_5 => exact malformed_ensures
  case h_6 a b hOp hOperands =>
    exact add_ensures hSize hKnown hOp hOperands
  case h_7 hOp hOther =>
    refine checkArity_ensures.weaken ?_
    rintro _ s' ⟨hArity, -⟩
    rcases List.length_eq_two.mp hArity with ⟨a, b, hOperands⟩
    exact absurd hOperands (hOther a b)
  case h_8 a hOp hOperands =>
    simp only [ensures_bind, ensures_get]
    cases hValue : s.value? n with
    | none => exact relu_ensures hSize hKnown hOp hOperands hValue
    | some v => exact .known hOp (by simp [hValue])
  case h_9 hOp hOther =>
    simp only [ensures_bind, ensures_get]
    cases hValue : s.value? n with
    | none =>
        refine checkArity_ensures.weaken ?_
        rintro _ s' ⟨hArity, -⟩
        rcases List.length_eq_one_iff.mp hArity with ⟨a, hOperands⟩
        exact absurd hOperands (hOther a)
    | some v => exact .known hOp (by simp [hValue])

end

/- A requested node is stored. -/
theorem finish_ensures
    (hKnown : s.Known) :
    Ensures (finish p n) s (·.Admissible m)
      (fun _ s' =>
        if n ∈ p.outputs then s.Exports n s' else s' = s) := by
  unfold finish
  by_cases hOutput : n ∈ p.outputs
  case neg =>
    simp only [hOutput, if_false]
    rfl
  case pos =>
    simp only [hOutput, if_true]
    refine (operand_ensures n).bind ?_
    rintro t s' ⟨v, hValue, rfl, rfl⟩
    rcases hKnown n v hValue with ⟨tensor, hTensor⟩
    have hFetched :
        (s.fetch n v).bench.tensors.get? v.tensor = some tensor := by
      rw [Lowering.bench_fetch, hTensor]
    simp only [onBench, ensures_bind, ensures_get,
      Workbench.exportTensor, TensorTable.fetch_eq_ok hFetched]
    cases hExported : tensor.exported with
    | some location => exact .again hValue hTensor (by simp [hExported])
    | none =>
        simp only
        rcases Workbench.reserveSlot_cases hFetched .exported .dram0 with
          ⟨overflow, hOverflow, hReserve⟩ | ⟨hFits, hReserve⟩
        · rw [hReserve]
          exact .beyondCounts overflow hOverflow
        · rw [hReserve]
          rw [Lowering.bench_fetch] at hFits
          have hExports :=
            Lowering.Exports.first hValue hTensor hExported hFits
          rw [← Lowering.bench_fetch s n v] at hExports
          exact hExports

end Lower

end Systolic
