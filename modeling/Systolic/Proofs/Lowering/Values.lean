import Systolic.Proofs.Graph.Denotation
import Systolic.Proofs.Graph.Order
import Systolic.Proofs.Lowering.Sound

/-
  This file describes which nodes share a tensor. The tensor of a
  node holds the value of the node, but for a node whose rectifier
  is fused into it: that tensor holds the value of the rectifier,
  which is the only node that uses its operand.

  Key definitions include:
    * `Plan.meaning`
    * `Lowering.Adds`
    * `Lowering.Maps`

  Key theorems include:
    * `Plan.eq_of_fused`
    * `Lowering.Adds.computes`
    * `Lowering.Maps.add`
-/

namespace Systolic

variable {ν V : Type}

------------------------------------------------------------
-- Growing States
------------------------------------------------------------

namespace Lowering

/- A state has grown by values and by operations that store nothing. -/
structure Adds (s s' : Lowering ν) : Prop where
  values : ∀ entry ∈ s.values, entry ∈ s'.values
  program :
    ∃ ops, s'.program = s.program ++ ops ∧ ∀ t, .store t ∉ ops

namespace Adds

variable {s s' s'' : Lowering ν}

theorem of_program_eq
    (hValues : ∀ entry ∈ s.values, entry ∈ s'.values)
    (hProgram : s'.program = s.program) :
    s.Adds s' :=
  ⟨hValues, [], by simp [hProgram], by simp⟩

theorem trans
    (hFirst : s.Adds s')
    (hSecond : s'.Adds s'') :
    s.Adds s'' := by
  rcases hFirst.program with ⟨ops, hOps, hNone⟩
  rcases hSecond.program with ⟨ops', hOps', hNone'⟩
  refine ⟨?_, ops ++ ops', ?_, ?_⟩
  · intro entry hMem
    exact hSecond.values entry (hFirst.values entry hMem)
  · rw [hOps', hOps, List.append_assoc]
  · intro t hMem
    rcases List.mem_append.mp hMem with hMem | hMem
    · exact hNone t hMem
    · exact hNone' t hMem

theorem push
    {op : Operation}
    (hOp : ∀ t, op ≠ .store t) :
    s.Adds (s.push op) := by
  refine ⟨fun _ hMem => hMem, [op], rfl, ?_⟩
  intro t hMem
  exact hOp t (List.mem_singleton.mp hMem).symm

theorem fetch
    {n : ν}
    {v : Value} :
    s.Adds (s.fetch n v) := by
  unfold Lowering.fetch
  split
  case isTrue =>
    have hDefined :
        s.Adds (s.define n { v with needsLoad := false }) := by
      refine of_program_eq ?_ rfl
      intro entry hMem
      exact List.mem_cons_of_mem _ hMem
    exact hDefined.trans (push (by simp))
  case isFalse => exact of_program_eq (fun _ hMem => hMem) rfl

theorem conclude
    {name : String}
    {layout : VectorLayout}
    {acc : TensorId}
    {activation : Activation}
    {holders : List ν} :
    s.Adds (s.conclude name layout acc [] activation holders) := by
  refine ⟨?_, [.activate acc s.next activation], ?_, by simp⟩
  · intro entry hMem
    exact List.mem_append_right _ hMem
  · rw [Lowering.conclude, List.append_nil]

end Adds

end Lowering

variable [DecidableEq ν]

------------------------------------------------------------
-- Fused Rectifiers
------------------------------------------------------------

namespace Plan

variable {p : Plan ν} {n m r : ν}

/- The node whose value the tensor of a node holds. -/
def meaning
    (p : Plan ν)
    (n : ν) : ν :=
  (p.fused? n).getD n

/- A node that is an operand of two nodes is counted twice. -/
theorem two_le_count_flatMap
    {f : ν → List ν}
    {nodes : List ν}
    (hN : n ∈ nodes)
    (hR : r ∈ nodes)
    (hNe : n ≠ r)
    (hMemN : m ∈ f n)
    (hMemR : m ∈ f r) :
    2 ≤ (nodes.flatMap f).count m := by
  induction nodes with
  | nil => cases hN
  | cons k ks ih =>
      have hOne :
          ∀ c, c ∈ ks → m ∈ f c → 1 ≤ (ks.flatMap f).count m := by
        intro c hC hMem
        exact List.count_pos_iff.mpr (List.mem_flatMap.mpr ⟨c, hC, hMem⟩)
      rw [List.flatMap_cons, List.count_append]
      rcases List.mem_cons.mp hN with rfl | hLater
      · rcases List.mem_cons.mp hR with rfl | hLater'
        · exact absurd rfl hNe
        · have hHead := List.count_pos_iff.mpr hMemN
          have hTail := hOne r hLater' hMemR
          omega
      · rcases List.mem_cons.mp hR with rfl | hLater'
        · have hHead := List.count_pos_iff.mpr hMemR
          have hTail := hOne n hLater hMemN
          omega
        · have hTail := ih hLater hLater'
          omega

/- An operand with a fused rectifier is used by that rectifier only. -/
theorem eq_of_fused
    (hFused : p.fused? m = some r)
    (hNode : n ∈ p.nodes)
    (hOperand : m ∈ p.network.operands n) :
    n = r := by
  rcases fused?_eq_some hFused with
    ⟨⟨-, hUses, -⟩, hRectifier, -, hOperands⟩
  by_contra hNe
  have hSelf : m ∈ p.network.operands r := by simp [hOperands]
  have hTwice :=
    two_le_count_flatMap hNode hRectifier hNe hOperand hSelf
  unfold uses at hUses
  omega

theorem fused?_eq_none_of_op
    (hProduct : p.network.op n ≠ .matMul)
    (hSum : p.network.op n ≠ .add) :
    p.fused? n = none := by
  unfold fused?
  rw [if_neg]
  intro hFusible
  rcases hFusible.1 with hOp | hOp
  · exact hProduct hOp
  · exact hSum hOp

theorem holders_of_op
    (hProduct : p.network.op n ≠ .matMul)
    (hSum : p.network.op n ≠ .add) :
    p.holders n = [n] := by
  rw [holders, fused?_eq_none_of_op hProduct hSum, Option.toList_none]

theorem meaning_of_output
    (hOutput : n ∈ p.outputs) :
    p.meaning n = n := by
  have hNone : p.fused? n = none := by
    unfold fused?
    rw [if_neg]
    intro hFusible
    exact hFusible.2.2 hOutput
  rw [meaning, hNone, Option.getD_none]

theorem meaning_of_relu
    (hOp : p.network.op n = .relu) :
    p.meaning n = n := by
  have hNone : p.fused? n = none := by
    apply fused?_eq_none_of_op <;> simp [hOp]
  rw [meaning, hNone, Option.getD_none]

theorem meaning_of_source
    (hOp : (p.network.op n).IsSource) :
    p.meaning n = n := by
  have hNone : p.fused? n = none := by
    apply fused?_eq_none_of_op
    · intro hProduct
      rw [hProduct] at hOp
      exact hOp
    · intro hSum
      rw [hSum] at hOp
      exact hOp
  rw [meaning, hNone, Option.getD_none]

/- The operands of a node mean themselves, but for a fused one. -/
theorem meaning_of_operand
    (hNode : n ∈ p.nodes)
    (hOperand : m ∈ p.network.operands n)
    (hOther : p.fused? m ≠ some n) :
    p.meaning m = m := by
  cases hFused : p.fused? m with
  | none => rw [meaning, hFused, Option.getD_none]
  | some r =>
      have hSame := eq_of_fused hFused hNode hOperand
      subst hSame
      exact absurd hFused hOther

/- All operands of a node that is no rectifier mean themselves. -/
theorem meaning_of_operand_of_op
    (hNode : n ∈ p.nodes)
    (hOp : p.network.op n ≠ .relu)
    (hOperand : m ∈ p.network.operands n) :
    p.meaning m = m := by
  apply meaning_of_operand hNode hOperand
  intro hFused
  exact hOp (fused?_eq_some hFused).2.2.1

/- All nodes whose value is one result have one meaning. -/
theorem meaning_of_mem_holders
    (hMem : m ∈ p.holders n) :
    p.meaning m = p.meaning n := by
  rcases List.mem_cons.mp hMem with rfl | hFused
  · rfl
  · have hFound : p.fused? n = some m := Option.mem_toList.mp hFused
    have hOp := (fused?_eq_some hFound).2.2.1
    rw [meaning_of_relu hOp, meaning, hFound, Option.getD_some]

end Plan

------------------------------------------------------------
-- Values of Nodes
------------------------------------------------------------

namespace Lowering

variable {p : Plan ν} {s : Lowering ν} {n : ν} {v : Value}

theorem mem_values_of_value?
    (hValue : s.value? n = some v) :
    (n, v) ∈ s.values := by
  unfold value? at hValue
  rcases Option.map_eq_some_iff.mp hValue with ⟨entry, hFind, rfl⟩
  have hSame := List.find?_some hFind
  rw [← of_decide_eq_true hSame]
  exact List.mem_of_find?_eq_some hFind

theorem value?_isSome_of_mem
    (hMem : (n, v) ∈ s.values) :
    (s.value? n).isSome := by
  unfold value?
  rw [Option.isSome_map, List.find?_isSome]
  exact ⟨(n, v), hMem, by simp⟩

namespace Adds

variable {s' : Lowering ν}

theorem fetches
    {ns : List ν}
    {ts : List TensorId}
    (hFetches : s.Fetches ns ts s') :
    s.Adds s' := by
  induction hFetches with
  | nil => exact of_program_eq (fun _ hMem => hMem) rfl
  | cons _ _ ih => exact fetch.trans ih

/- The computation of a node stores nothing. -/
theorem computes
    (hComputes : s.Computes p n s') :
    s.Adds s' := by
  cases hComputes with
  | known => exact of_program_eq (fun _ hMem => hMem) rfl
  | source =>
      refine of_program_eq ?_ rfl
      intro entry hMem
      exact List.mem_cons_of_mem _ hMem
  | @product _ _ _ _ _ _ _ _ _ _ s₁ layout name _ _ _ _ _ _ _ _ _
      hFetches =>
      rw [conclude_cons]
      have hGrown :
          s₁.Adds (s₁.grow name layout .accumulator .accumulator) :=
        of_program_eq (fun _ hMem => hMem) rfl
      exact (fetches hFetches).trans
        (hGrown.trans ((push (by simp)).trans conclude))
  | @sum _ _ _ _ _ layout name _ _ _ _ _ _ _ _ _ hFirst _ _ hSecond =>
      subst hSecond hFirst
      have hGrown : s.Adds (s.grow name layout .accumulator .accumulator) :=
        of_program_eq (fun _ hMem => hMem) rfl
      exact hGrown.trans (fetch.trans ((push (by simp)).trans
        (fetch.trans ((push (by simp)).trans conclude))))
  | @rectifier a v layout name _ _ _ _ _ _ _ hFirst =>
      subst hFirst
      rw [conclude_cons]
      have hGrown :
          (s.fetch a v).Adds
            ((s.fetch a v).grow name layout .accumulator .accumulator) :=
        of_program_eq (fun _ hMem => hMem) rfl
      exact fetch.trans (hGrown.trans ((push (by simp)).trans conclude))

end Adds

/-
  The values of nodes when some nodes are done. A node has one
  tensor, and nodes that share a tensor have the same meaning.
-/
structure Maps
    (p : Plan ν)
    (done : List ν)
    (s : Lowering ν) : Prop where
  known :
    ∀ n v, (n, v) ∈ s.values →
      ∃ tensor, s.bench.tensors.get? v.tensor = some tensor
  defined :
    ∀ n v, (n, v) ∈ s.values →
      n ∈ done ∨ ∃ a ∈ done, p.fused? a = some n
  fused :
    ∀ n v r, (n, v) ∈ s.values → p.fused? n = some r →
      ∃ u, (r, u) ∈ s.values
  functional :
    ∀ n v u, (n, v) ∈ s.values → (n, u) ∈ s.values →
      v.tensor = u.tensor
  shared :
    ∀ n v k u, (n, v) ∈ s.values → (k, u) ∈ s.values →
      v.tensor = u.tensor → p.meaning n = p.meaning k
  waiting :
    ∀ n v, (n, v) ∈ s.values → v.needsLoad = true →
      (p.network.op n).IsSource

namespace Maps

variable {done : List ν}
variable {s' : Lowering ν}

section

variable (hMaps : s.Maps p done)
include hMaps

/- What matters are the values and that tensors stay in the table. -/
theorem of_values_eq
    (hValues : s'.values = s.values)
    (hTensors : s.bench.tensors.Extends s'.bench.tensors) :
    s'.Maps p done := by
  constructor
  case known =>
    intro n v hMem
    rw [hValues] at hMem
    rcases hMaps.known n v hMem with ⟨tensor, hTensor⟩
    rcases hTensors v.tensor tensor hTensor with ⟨grown, hGrown, -⟩
    exact ⟨grown, hGrown⟩
  all_goals rw [hValues]
  · exact hMaps.defined
  · exact hMaps.fused
  · exact hMaps.functional
  · exact hMaps.shared
  · exact hMaps.waiting

/- One more node may be done without a new value. -/
theorem done_snoc
    (n : ν) :
    s.Maps p (done ++ [n]) := by
  refine { hMaps with defined := ?_ }
  intro k u hEntry
  rcases hMaps.defined k u hEntry with hDone | ⟨a, hDone, hFused⟩
  · exact .inl (List.mem_append_left _ hDone)
  · exact .inr ⟨a, List.mem_append_left _ hDone, hFused⟩

/- Another entry of a node that has its tensor keeps the values. -/
theorem define_again
    {u : Value}
    (hMem : (n, v) ∈ s.values)
    (hTensor : u.tensor = v.tensor)
    (hReady : u.needsLoad = false) :
    (s.define n u).Maps p done := by
  -- Each entry agrees with an old one in its node and its tensor.
  have hOld :
      ∀ k w, (k, w) ∈ (s.define n u).values →
        ∃ w', (k, w') ∈ s.values ∧ w'.tensor = w.tensor := by
    intro k w hEntry
    rcases List.mem_cons.mp hEntry with hSame | hEntry
    · cases hSame
      exact ⟨v, hMem, hTensor.symm⟩
    · exact ⟨w, hEntry, rfl⟩
  constructor
  case known =>
    intro k w hEntry
    rcases hOld k w hEntry with ⟨w', hEntry', hSame⟩
    rw [← hSame]
    exact hMaps.known k w' hEntry'
  case defined =>
    intro k w hEntry
    rcases hOld k w hEntry with ⟨w', hEntry', -⟩
    exact hMaps.defined k w' hEntry'
  case fused =>
    intro k w r hEntry hFused
    rcases hOld k w hEntry with ⟨w', hEntry', -⟩
    rcases hMaps.fused k w' r hEntry' hFused with ⟨u', hU'⟩
    exact ⟨u', List.mem_cons_of_mem _ hU'⟩
  case functional =>
    intro k w x hW hX
    rcases hOld k w hW with ⟨w', hW', hSame⟩
    rcases hOld k x hX with ⟨x', hX', hSame'⟩
    rw [← hSame, ← hSame']
    exact hMaps.functional k w' x' hW' hX'
  case shared =>
    intro k w l x hW hX hTensors
    rcases hOld k w hW with ⟨w', hW', hSame⟩
    rcases hOld l x hX with ⟨x', hX', hSame'⟩
    rw [← hSame, ← hSame'] at hTensors
    exact hMaps.shared k w' l x' hW' hX' hTensors
  case waiting =>
    intro k w hEntry hLoad
    rcases List.mem_cons.mp hEntry with hSame | hEntry
    · cases hSame
      rw [hReady] at hLoad
      cases hLoad
    · exact hMaps.waiting k w hEntry hLoad

/- Using a node keeps the values. -/
theorem fetch
    (hValue : s.value? n = some v) :
    (s.fetch n v).Maps p done := by
  unfold Lowering.fetch
  split
  case isTrue =>
    have hMem := mem_values_of_value? hValue
    have hDefined :
        (s.define n { v with needsLoad := false }).Maps p done :=
      hMaps.define_again hMem rfl rfl
    exact hDefined.of_values_eq rfl (.refl _)
  case isFalse => exact hMaps

theorem fetches
    {ns : List ν}
    {ts : List TensorId}
    (hFetches : s.Fetches ns ts s') :
    s'.Maps p done := by
  induction hFetches with
  | nil => exact hMaps
  | cons hValue _ ih => exact ih (hMaps.fetch hValue)

/- A rectifier whose operand is next has no value. -/
theorem holders_new
    {k : ν}
    (hOrdered : p.network.Ordered done)
    (hNew : n ∉ done)
    (hRelu : p.network.op n = .relu → s.value? n = none)
    (hMem : k ∈ p.holders n)
    (v : Value) :
    (k, v) ∉ s.values := by
  rcases List.mem_cons.mp hMem with rfl | hFused
  · intro hEntry
    rcases hMaps.defined k v hEntry with hDone | ⟨a, hDone, hFound⟩
    · exact hNew hDone
    · have hNone := hRelu (Plan.fused?_eq_some hFound).2.2.1
      have hSome := value?_isSome_of_mem hEntry
      rw [hNone] at hSome
      cases hSome
  · have hFound : p.fused? n = some k := Option.mem_toList.mp hFused
    have hOperands := (Plan.fused?_eq_some hFound).2.2.2
    intro hEntry
    rcases hMaps.defined k v hEntry with hDone | ⟨a, hDone, hOther⟩
    · exact hNew (hOrdered.closed hDone (by simp [hOperands]))
    · have hOperands' := (Plan.fused?_eq_some hOther).2.2.2
      cases hOperands.symm.trans hOperands'
      exact hNew hDone

/- A new tensor becomes the value of a node and its rectifier. -/
theorem add
    (hNew : ∀ k ∈ p.holders n, ∀ u, (k, u) ∉ s.values)
    (hTensor : v.tensor = s.next)
    (hValues :
      s'.values = (p.holders n).map (fun k => (k, v)) ++ s.values)
    (hNext : ∃ tensor, s'.bench.tensors.get? s.next = some tensor)
    (hExtends : s.bench.tensors.Extends s'.bench.tensors)
    (hWaiting :
      v.needsLoad = true →
        ∀ k ∈ p.holders n, (p.network.op k).IsSource) :
    s'.Maps p (done ++ [n]) := by
  have hCases :
      ∀ k u, (k, u) ∈ s'.values →
        (k ∈ p.holders n ∧ u = v) ∨
          ((k, u) ∈ s.values ∧ u.tensor ≠ s.next) := by
    intro k u hEntry
    rw [hValues] at hEntry
    rcases List.mem_append.mp hEntry with hHolder | hOld
    · rcases List.mem_map.mp hHolder with ⟨k', hMem, hSame⟩
      cases hSame
      exact .inl ⟨hMem, rfl⟩
    · rcases hMaps.known k u hOld with ⟨tensor, hGet⟩
      exact .inr ⟨hOld, ne_next hGet⟩
  have hMem : ∀ k ∈ p.holders n, (k, v) ∈ s'.values := by
    intro k hHolder
    rw [hValues]
    exact List.mem_append_left _ (List.mem_map.mpr ⟨k, hHolder, rfl⟩)
  constructor
  case known =>
    intro k u hEntry
    rcases hCases k u hEntry with ⟨-, rfl⟩ | ⟨hOld, -⟩
    · rw [hTensor]
      exact hNext
    · rcases hMaps.known k u hOld with ⟨tensor, hGet⟩
      rcases hExtends u.tensor tensor hGet with ⟨grown, hGrown, -⟩
      exact ⟨grown, hGrown⟩
  case defined =>
    intro k u hEntry
    have hLast : n ∈ done ++ [n] := by simp
    rcases hCases k u hEntry with ⟨hHolder, -⟩ | ⟨hOld, -⟩
    · rcases List.mem_cons.mp hHolder with rfl | hFused
      · exact .inl hLast
      · exact .inr ⟨n, hLast, Option.mem_toList.mp hFused⟩
    · exact (hMaps.done_snoc n).defined k u hOld
  case fused =>
    intro k u r hEntry hFused
    rcases hCases k u hEntry with ⟨hHolder, -⟩ | ⟨hOld, -⟩
    · rcases List.mem_cons.mp hHolder with rfl | hRectifier
      · refine ⟨v, hMem r ?_⟩
        exact List.mem_cons_of_mem _ (Option.mem_toList.mpr hFused)
      · -- A rectifier is not the operand of a fused one.
        have hFound := Option.mem_toList.mp hRectifier
        have hOp := (Plan.fused?_eq_some hFound).2.2.1
        have hFusible := (Plan.fused?_eq_some hFused).1.1
        rw [hOp] at hFusible
        rcases hFusible with hFalse | hFalse <;> cases hFalse
    · rcases hMaps.fused k u r hOld hFused with ⟨u', hU'⟩
      refine ⟨u', ?_⟩
      rw [hValues]
      exact List.mem_append_right _ hU'
  case functional =>
    intro k u w hU hW
    rcases hCases k u hU with ⟨hHolder, rfl⟩ | ⟨hOldU, -⟩ <;>
      rcases hCases k w hW with ⟨hHolder', rfl⟩ | ⟨hOldW, -⟩
    · rfl
    · exact absurd hOldW (hNew k hHolder w)
    · exact absurd hOldU (hNew k hHolder' u)
    · exact hMaps.functional k u w hOldU hOldW
  case shared =>
    intro k u l w hU hW hTensors
    rcases hCases k u hU with ⟨hHolder, rfl⟩ | ⟨hOldU, hNeU⟩ <;>
      rcases hCases l w hW with ⟨hHolder', rfl⟩ | ⟨hOldW, hNeW⟩
    · rw [Plan.meaning_of_mem_holders hHolder,
        Plan.meaning_of_mem_holders hHolder']
    · exact absurd (hTensors.symm.trans hTensor) hNeW
    · exact absurd (hTensors.trans hTensor) hNeU
    · exact hMaps.shared k u l w hOldU hOldW hTensors
  case waiting =>
    intro k u hEntry hLoad
    rcases hCases k u hEntry with ⟨hHolder, rfl⟩ | ⟨hOld, -⟩
    · exact hWaiting hLoad k hHolder
    · exact hMaps.waiting k u hOld hLoad

end

end Maps

end Lowering

end Systolic
