import Systolic.Proofs.Lowering.Values

/-
  This file proves that lowering preserves meaning: whatever the
  functions of the nodes are, each requested node is stored once,
  with the value that the network denotes for it.

  Key definitions include:
    * `Lowering.Homes`
    * `Lowering.Means`
    * `Lowering.Faithful`

  Key theorems include:
    * `Lowering.Means.computes`
    * `Lowering.Faithful.lowers`
    * `lowerNodes_preserves_meaning`
-/

namespace Systolic

variable {ν V : Type}

namespace Lowering

variable {done : List ν} {I : Interpretation ν V}
variable {home env : TensorId → V}

/- The environment after the program of a state. -/
def result
    (I : Interpretation ν V)
    (home env : TensorId → V)
    (s : Lowering ν) : TensorId → V :=
  I.semantics.exec home s.program env

theorem result_push
    {s : Lowering ν}
    (op : Operation) :
    (s.push op).result I home env =
      I.semantics.step home (s.result I home env) op :=
  I.semantics.exec_snoc home s.program op env

/- Operations that store nothing leave the stores as they are. -/
theorem Adds.stores_eq
    {s s' : Lowering ν}
    (hAdds : s.Adds s') :
    I.semantics.stores home s'.program env =
      I.semantics.stores home s.program env := by
  rcases hAdds.program with ⟨ops, hProgram, hNone⟩
  rw [hProgram, Semantics.stores_append,
    Semantics.stores_eq_nil _ _ hNone, List.append_nil]

variable [DecidableEq ν]
variable {p : Plan ν} {s : Lowering ν} {n : ν} {v : Value}

------------------------------------------------------------
-- Values of Tensors
------------------------------------------------------------

section Tensors

variable {s' : Lowering ν} {k : ν} {name : String}
variable {layout : VectorLayout} {acc : TensorId}

/- The inputs and constants have their values at home. -/
def Homes
    (p : Plan ν)
    (I : Interpretation ν V)
    (home : TensorId → V)
    (s : Lowering ν) : Prop :=
  ∀ n v, (n, v) ∈ s.values → (p.network.op n).IsSource →
    home v.tensor = I.source n

/- The tensors that are ready hold what their nodes mean. -/
def Means
    (p : Plan ν)
    (I : Interpretation ν V)
    (home env : TensorId → V)
    (s : Lowering ν) : Prop :=
  ∀ n v, (n, v) ∈ s.values → v.needsLoad = false →
    p.network.Denotes I (p.meaning n) (s.result I home env v.tensor)

theorem Homes.fetch
    (hHomes : s.Homes p I home)
    (hValue : s.value? n = some v) :
    (s.fetch n v).Homes p I home := by
  unfold Lowering.fetch
  split
  case isTrue =>
    intro k u hEntry hOp
    rcases List.mem_cons.mp hEntry with hSame | hOld
    · cases hSame
      exact hHomes n v (mem_values_of_value? hValue) hOp
    · exact hHomes k u hOld hOp
  case isFalse => exact hHomes

namespace Means

/- An operation whose result is no value keeps what tensors hold. -/
theorem push
    {op : Operation}
    (hMeans : s.Means p I home env)
    (hTarget : ∀ k u, (k, u) ∈ s.values → op.target ≠ some u.tensor) :
    (s.push op).Means p I home env := by
  intro k u hEntry hReady
  rw [result_push]
  rw [I.semantics.step_of_target_ne home (hTarget k u hEntry)]
  exact hMeans k u hEntry hReady

section

variable (hMeans : s.Means p I home env) (hMaps : s.Maps p done)
include hMeans hMaps

/- A node that is used holds what it means afterwards. -/
theorem fetch
    (hHomes : s.Homes p I home)
    (hValue : s.value? n = some v) :
    (s.fetch n v).Means p I home env := by
  have hMem := mem_values_of_value? hValue
  unfold Lowering.fetch
  split
  case isFalse => exact hMeans
  case isTrue hLoad =>
    have hSource := hMaps.waiting n v hMem hLoad
    have hDenotes : p.network.Denotes I (p.meaning n) (home v.tensor) := by
      rw [Plan.meaning_of_source hSource, hHomes n v hMem hSource]
      exact .source hSource
    intro k u hEntry hReady
    rw [result_push]
    by_cases hSame : u.tensor = v.tensor
    · -- The load brings the value of all nodes with this tensor.
      have hMeaning : p.meaning k = p.meaning n := by
        rcases List.mem_cons.mp hEntry with hFirst | hOld
        · cases hFirst
          rfl
        · exact hMaps.shared k u n v hOld hMem hSame
      rw [hMeaning, hSame]
      simpa [Semantics.step] using hDenotes
    · rcases List.mem_cons.mp hEntry with hFirst | hOld
      · cases hFirst
        exact absurd rfl hSame
      · have hKept :
            I.semantics.step home (s.result I home env) (.load v.tensor)
              u.tensor = s.result I home env u.tensor :=
          Function.update_of_ne hSame _ _
        exact hKept ▸ hMeans k u hOld hReady

theorem fetches
    {ns : List ν}
    {ts : List TensorId}
    (hHomes : s.Homes p I home)
    (hFetches : s.Fetches ns ts s') :
    s'.Means p I home env := by
  induction hFetches with
  | nil => exact hMeans
  | cons hValue _ ih =>
      exact ih (hMeans.fetch hMaps hHomes hValue) (hMaps.fetch hValue)
        (hHomes.fetch hValue)

/- What a node computes becomes the value of all nodes that hold it. -/
theorem conclude
    {activation : Activation}
    {holders : List ν}
    (hDenotes :
      ∀ k ∈ holders, p.network.Denotes I (p.meaning k)
        (I.semantics.activate activation s.next
          (s.result I home env acc))) :
    (s.conclude name layout acc [] activation
      holders).Means p I home env := by
  have hResult :
      (s.conclude name layout acc [] activation
        holders).result I home env =
        Function.update (s.result I home env) s.next
          (I.semantics.activate activation s.next
            (s.result I home env acc)) := by
    unfold result
    rw [Lowering.conclude, List.append_nil, Semantics.exec_snoc]
    rfl
  intro k u hEntry hReady
  rw [hResult]
  rcases List.mem_append.mp hEntry with hHolder | hOld
  · rcases List.mem_map.mp hHolder with ⟨k', hMem, hSame⟩
    cases hSame
    rw [Function.update_self]
    exact hDenotes k hMem
  · rcases hMaps.known k u hOld with ⟨tensor, hTensor⟩
    rw [Function.update_of_ne (ne_next hTensor)]
    exact hMeans k u hOld hReady

end

end Means

/- The activation of a node gives what its tensor means. -/
theorem denotes_activation
    {x : V}
    {t : TensorId}
    (hDenotes : p.network.Denotes I n x) :
    p.network.Denotes I (p.meaning n)
      (I.semantics.activate (p.activation n) t x) := by
  cases hFused : p.fused? n with
  | none =>
      simpa [Plan.meaning, Plan.activation, hFused,
        Interpretation.semantics] using hDenotes
  | some r =>
      rcases Plan.fused?_eq_some hFused with ⟨-, -, hOp, hOperands⟩
      simpa [Plan.meaning, Plan.activation, hFused,
        Interpretation.semantics] using .rectifier hOp hOperands hDenotes

/- A node that is used is ready, and stays so. -/
theorem Fetches.value?_eq
    {ns : List ν}
    {ts : List TensorId}
    (hFetches : s.Fetches ns ts s')
    (hValue : s.value? n = some v)
    (hReady : v.needsLoad = false) :
    s'.value? n = some v := by
  induction hFetches with
  | nil => exact hValue
  | @cons s s' k u ns ts hK _ ih =>
      apply ih
      rw [value?_fetch hK]
      split
      case isTrue hSame =>
        subst hSame
        cases hK.symm.trans hValue
        rw [← hReady]
      case isFalse => exact hValue

theorem Fetches.ready
    {ns : List ν}
    {ts : List TensorId}
    (hFetches : s.Fetches ns ts s') :
    List.Forall₂
      (fun n t =>
        ∃ v, (n, v) ∈ s'.values ∧ v.tensor = t ∧ v.needsLoad = false)
      ns ts := by
  induction hFetches with
  | nil => exact .nil
  | @cons s s' n v ns ts hValue hRest ih =>
      have hNow :
          (s.fetch n v).value? n = some { v with needsLoad := false } := by
        rw [value?_fetch hValue, if_pos rfl]
      have hThen := hRest.value?_eq hNow rfl
      exact .cons ⟨_, mem_values_of_value? hThen, rfl, rfl⟩ ih

------------------------------------------------------------
-- Nodes
------------------------------------------------------------

/- An accumulator tensor is the value of no node. -/
theorem Maps.next_ne
    (hMaps : s.Maps p done)
    {u : Value}
    (hEntry : (k, u) ∈ s.values) :
    s.next ≠ u.tensor := by
  rcases hMaps.known k u hEntry with ⟨tensor, hTensor⟩
  exact (ne_next hTensor).symm

theorem Maps.grow
    (hMaps : s.Maps p done)
    (name : String)
    (layout : VectorLayout)
    (role : TensorRole)
    (kind : MemoryKind) :
    (s.grow name layout role kind).Maps p done :=
  hMaps.of_values_eq rfl (TensorTable.extends_add _ _)

theorem Maps.push
    (hMaps : s.Maps p done)
    (op : Operation) :
    (s.push op).Maps p done :=
  hMaps.of_values_eq rfl (.refl _)

/- The result of a node is a new value with the right meaning. -/
theorem concludes
    {activation : Activation}
    (hMaps : s.Maps p done)
    (hMeans : s.Means p I home env)
    (hNew : ∀ k ∈ p.holders n, ∀ u, (k, u) ∉ s.values)
    (hDenotes :
      p.network.Denotes I (p.meaning n)
        (I.semantics.activate activation s.next
          (s.result I home env acc))) :
    (s.conclude name layout acc [] activation
        (p.holders n)).Maps p (done ++ [n]) ∧
      (s.conclude name layout acc [] activation
        (p.holders n)).Means p I home env := by
  constructor
  · refine hMaps.add hNew rfl rfl ?_ (TensorTable.extends_add _ _) ?_
    · exact ⟨_, (TensorTable.get?_add _ _ _).trans (if_pos rfl)⟩
    · intro hLoad
      cases hLoad
  · apply hMeans.conclude hMaps
    intro k hMem
    rw [Plan.meaning_of_mem_holders hMem]
    exact hDenotes

/- A node that is ready and means itself holds what it denotes. -/
theorem Means.denotes
    {t : TensorId}
    (hMeans : s.Means p I home env)
    (hReady :
      ∃ u, (k, u) ∈ s.values ∧ u.tensor = t ∧ u.needsLoad = false)
    (hSelf : p.meaning k = k) :
    p.network.Denotes I k (s.result I home env t) := by
  rcases hReady with ⟨u, hEntry, rfl, hLoad⟩
  have hDenotes := hMeans k u hEntry hLoad
  rwa [hSelf] at hDenotes

/- No node has a given tensor as its value. -/
def Apart
    (s : Lowering ν)
    (acc : TensorId) : Prop :=
  ∀ k u, (k, u) ∈ s.values → acc ≠ u.tensor

theorem Apart.fetch
    (hApart : s.Apart acc)
    (hValue : s.value? n = some v) :
    (s.fetch n v).Apart acc := by
  unfold Lowering.fetch
  split
  case isTrue =>
    intro k u hEntry
    rcases List.mem_cons.mp hEntry with hSame | hOld
    · cases hSame
      exact hApart n v (mem_values_of_value? hValue)
    · exact hApart k u hOld
  case isFalse => exact hApart

/- An accumulation adds what a node means to the accumulator. -/
theorem Means.accumulate
    (hMeans : s.Means p I home env)
    (hMaps : s.Maps p done)
    (hHomes : s.Homes p I home)
    (hApart : s.Apart acc)
    (hValue : s.value? k = some v)
    (add : Bool) :
    ((s.fetch k v).push
        (.accumulate v.tensor acc add)).Means p I home env ∧
      ∃ x, p.network.Denotes I (p.meaning k) x ∧
        ((s.fetch k v).push
          (.accumulate v.tensor acc add)).result I home env acc =
          if add then I.add (s.result I home env acc) x else x := by
  have hFetched := hMeans.fetch hMaps hHomes hValue
  have hApart' := hApart.fetch hValue
  have hReady :
      (s.fetch k v).value? k = some { v with needsLoad := false } := by
    rw [value?_fetch hValue, if_pos rfl]
  have hEntry := mem_values_of_value? hReady
  constructor
  · apply hFetched.push
    intro k' u hEntry' hTarget
    exact hApart' k' u hEntry' (Option.some.inj hTarget)
  · refine ⟨(s.fetch k v).result I home env v.tensor,
      hFetched k { v with needsLoad := false } hEntry rfl, ?_⟩
    rw [result_push]
    cases add with
    | false => simp [Semantics.step]
    | true =>
        -- A load of the operand leaves the accumulator as it is.
        have hKept :
            (s.fetch k v).result I home env acc =
              s.result I home env acc := by
          unfold Lowering.fetch
          split
          case isTrue =>
            rw [result_push]
            have hNe := hApart k v (mem_values_of_value? hValue)
            exact Function.update_of_ne hNe _ _
          case isFalse => rfl
        simp [Semantics.step, Interpretation.semantics, hKept]

/- An input or a constant gets a new tensor, which has to be loaded. -/
theorem Maps.source
    {shape : List Nat}
    {role : TensorRole}
    {bank : DramBank}
    (hMaps : s.Maps p done)
    (hOrdered : p.network.Ordered done)
    (hNew : n ∉ done)
    (hOp :
      p.network.op n = .input shape ∨ p.network.op n = .constant shape) :
    (s.source n name layout role bank).Maps p (done ++ [n]) := by
  have hSource : (p.network.op n).IsSource := by
    rcases hOp with hOp | hOp
    · rw [hOp]
      trivial
    · rw [hOp]
      trivial
  have hHolders : p.holders n = [n] :=
    Plan.holders_of_op (by rcases hOp with h | h <;> simp [h])
      (by rcases hOp with h | h <;> simp [h])
  refine hMaps.add
    (v := { tensor := s.next, shape := layout.shape
            needsLoad := true }) ?_ rfl ?_ ?_ ?_ ?_
  · intro k hMem
    apply hMaps.holders_new hOrdered hNew _ hMem
    rcases hOp with hOp | hOp <;> simp [hOp]
  · rw [hHolders]
    rfl
  · exact ⟨_, (s.get?_source n name layout role bank _).trans
      (if_pos rfl)⟩
  · intro t tensor hTensor
    refine ⟨tensor, ?_, .refl tensor⟩
    rw [get?_source, if_neg (ne_next hTensor), hTensor]
  · intro _ k hMem
    rw [hHolders] at hMem
    rcases List.mem_singleton.mp hMem with rfl
    exact hSource

/- The product of operands that are ready is what its node denotes. -/
theorem Means.denotes_product
    {x w : ν}
    {bias : Option ν}
    {tx tw : TensorId}
    {tb : Option TensorId}
    {s₁ : Lowering ν}
    (hMeans : s₁.Means p I home env)
    (hOp : p.network.op n = .matMul)
    (hOperands : p.network.operands n = x :: w :: bias.toList)
    (hSelf : ∀ k ∈ p.network.operands n, p.meaning k = k)
    (hFetches :
      s.Fetches (x :: w :: bias.toList) (tx :: tw :: tb.toList) s₁) :
    p.network.Denotes I n
      (I.matMul (s₁.result I home env tx) (s₁.result I home env tw)
        (tb.map (s₁.result I home env))) := by
  rcases hFetches.ready with _ | ⟨hReadyX, hReadyRest⟩
  rcases hReadyRest with _ | ⟨hReadyW, hReadyB⟩
  have hDenotesX :=
    hMeans.denotes hReadyX (hSelf x (by simp [hOperands]))
  have hDenotesW :=
    hMeans.denotes hReadyW (hSelf w (by simp [hOperands]))
  cases bias with
  | none =>
      cases tb with
      | none => exact .product hOp hOperands hDenotesX hDenotesW
      | some t => cases hReadyB
  | some b =>
      cases tb with
      | none => cases hReadyB
      | some t =>
          rcases hReadyB with _ | ⟨hReadyB, -⟩
          have hDenotesB :=
            hMeans.denotes hReadyB (hSelf b (by simp [hOperands]))
          exact .biased hOp hOperands hDenotesX hDenotesW hDenotesB

/- The operand of a rectifier without a value is not fused with it. -/
theorem Maps.meaning_of_unfused
    {a : ν}
    (hMaps : s.Maps p done)
    (hNode : n ∈ p.nodes)
    (hOperand : a ∈ p.network.operands n)
    (hAbsent : s.value? n = none)
    (hValue : s.value? a = some v) :
    p.meaning a = a := by
  apply Plan.meaning_of_operand hNode hOperand
  intro hFused
  rcases hMaps.fused a v n (mem_values_of_value? hValue) hFused with
    ⟨u, hEntry⟩
  have hSome := value?_isSome_of_mem hEntry
  rw [hAbsent] at hSome
  cases hSome

/-
  A node that is used before its accumulator tensor is made has
  its meaning moved there.
-/
theorem Means.accumulate_grow
    {s₁ : Lowering ν}
    (hMeans : s.Means p I home env)
    (hMaps : s.Maps p done)
    (hHomes : s.Homes p I home)
    (hValue : s.value? k = some v)
    (hGrown :
      s₁ = (s.fetch k v).grow name layout .accumulator .accumulator) :
    (s₁.push (.accumulate v.tensor s.next false)).Maps p done ∧
      (s₁.push (.accumulate v.tensor s.next false)).Means p I home env ∧
      p.network.Denotes I (p.meaning k)
        ((s₁.push (.accumulate v.tensor s.next false)).result I home env
          s.next) := by
  have hFetched := hMaps.fetch hValue
  have hNext : (s.fetch k v).next = s.next := by
    rw [next, bench_fetch, ← next]
  have hMaps₁ : s₁.Maps p done := by
    rw [hGrown]
    exact hFetched.grow ..
  have hMeans₁ : s₁.Means p I home env := by
    rw [hGrown]
    exact hMeans.fetch hMaps hHomes hValue
  have hHomes₁ : s₁.Homes p I home := by
    rw [hGrown]
    exact hHomes.fetch hValue
  have hApart₁ : s₁.Apart s.next := by
    intro k' u hEntry
    rw [hGrown] at hEntry
    rw [← hNext]
    exact hFetched.next_ne hEntry
  have hReady : s₁.value? k = some { v with needsLoad := false } := by
    rw [hGrown, value?_grow, value?_fetch hValue, if_pos rfl]
  rcases hMeans₁.accumulate hMaps₁ hHomes₁ hApart₁ hReady false with
    ⟨hMeans₂, x, hDenotes, hX⟩
  have hResult :
      (s₁.push (.accumulate v.tensor s.next false)).result I home env
        s.next = x := hX
  exact ⟨hMaps₁.push _, hMeans₂, hResult ▸ hDenotes⟩

/- The computation of a node makes its tensor hold its meaning. -/
theorem Means.computes
    (hMeans : s.Means p I home env)
    (hMaps : s.Maps p done)
    (hHomes : s.Homes p I home)
    (hOrdered : p.network.Ordered done)
    (hNew : n ∉ done)
    (hNode : n ∈ p.nodes)
    (hComputes : s.Computes p n s') :
    s'.Maps p (done ++ [n]) ∧ s'.Means p I home env := by
  have hSelf :
      p.network.op n ≠ .relu →
        ∀ k ∈ p.network.operands n, p.meaning k = k :=
    fun hOp k => Plan.meaning_of_operand_of_op hNode hOp
  cases hComputes with
  | known => exact ⟨hMaps.done_snoc n, hMeans⟩
  | source hOp =>
      refine ⟨hMaps.source hOrdered hNew hOp, ?_⟩
      intro k u hEntry hReady
      rcases List.mem_cons.mp hEntry with hSame | hOld
      · cases hSame
        cases hReady
      · exact hMeans k u hOld hReady
  | @product x w bias xv wv k columns tx tw tb s₁ layout name name' hOp
      hOperands hWeights hBias hX hW hMatrix hInner hFetches hFlat
      hLayout =>
      have hMaps₁ := hMaps.fetches hFetches
      have hMeans₁ := hMeans.fetches hMaps hHomes hFetches
      have hDenotes := hMeans₁.denotes_product hOp hOperands
        (hSelf (by simp [hOp])) hFetches
      have hPushed :
          ((s₁.grow name layout .accumulator .accumulator).push
            (.matMul tx tw tb s₁.next)).Means p I home env := by
        refine push hMeans₁ ?_
        intro k' u hEntry hTarget
        exact hMaps₁.next_ne hEntry (Option.some.inj hTarget)
      rw [conclude_cons]
      refine concludes ((hMaps₁.grow ..).push _) hPushed ?_ ?_
      · intro k' hMem
        apply hMaps₁.holders_new hOrdered hNew _ hMem
        simp [hOp]
      · apply denotes_activation
        rw [result_push]
        simpa [Semantics.step, Interpretation.semantics, Lowering.grow,
          Lowering.result] using hDenotes
  | @sum a b av bv bv' layout name name' s₁ s₂ hOp hOperands hA hB
      hShapes hLayout hFirst hB' hSame hSecond hFlat hFlat' =>
      have hSelf' := hSelf (by simp [hOp])
      have hGrown := hMaps.grow name layout .accumulator .accumulator
      have hApart :
          (s.grow name layout .accumulator .accumulator).Apart s.next :=
        fun k u hEntry => hMaps.next_ne hEntry
      rcases Means.accumulate
          (s := s.grow name layout .accumulator .accumulator)
          hMeans hGrown hHomes hApart hA false with
        ⟨hMeans₁, x, hDenotesA, hX⟩
      have hMaps₁ := (hGrown.fetch hA).push
        (.accumulate av.tensor s.next false)
      have hHomes₁ := Homes.fetch
        (s := s.grow name layout .accumulator .accumulator) hHomes hA
      have hApart₁ := hApart.fetch hA
      subst hFirst
      rcases hMeans₁.accumulate hMaps₁ hHomes₁ hApart₁ hB' true with
        ⟨hMeans₂, y, hDenotesB, hY⟩
      have hMaps₂ := (hMaps₁.fetch hB').push
        (.accumulate bv'.tensor s.next true)
      subst hSecond
      rw [hSelf' a (by simp [hOperands])] at hDenotesA
      rw [hSelf' b (by simp [hOperands])] at hDenotesB
      refine concludes hMaps₂ hMeans₂ ?_ ?_
      · intro k' hMem
        apply hMaps₂.holders_new hOrdered hNew _ hMem
        simp [hOp]
      · apply denotes_activation
        rw [hY, hX]
        exact .sum hOp hOperands hDenotesA hDenotesB
  | @rectifier a v layout name name' s₁ hOp hOperands hAbsent hA hLayout
      hFirst hFlat =>
      have hSelfA : p.meaning a = a :=
        hMaps.meaning_of_unfused hNode (by simp [hOperands]) hAbsent hA
      have hHolders : p.holders n = [n] :=
        Plan.holders_of_op (by simp [hOp]) (by simp [hOp])
      have hStill : s₁.value? n = none := by
        rw [hFirst, value?_grow, value?_fetch hA, if_neg, hAbsent]
        intro hSame
        rw [hSame, hA] at hAbsent
        cases hAbsent
      rcases hMeans.accumulate_grow hMaps hHomes hA hFirst with
        ⟨hMaps₂, hMeans₂, hDenotes⟩
      rw [hSelfA] at hDenotes
      let s₂ := s₁.push (.accumulate v.tensor s.next false)
      have hConclude :
          (s₂.conclude name' layout s.next [] .relu
              (p.holders n)).Maps p (done ++ [n]) ∧
            (s₂.conclude name' layout s.next [] .relu
              (p.holders n)).Means p I home env := by
        refine concludes hMaps₂ hMeans₂ ?_ ?_
        · intro k hMem
          exact hMaps₂.holders_new hOrdered hNew (fun _ => hStill) hMem
        · rw [Plan.meaning_of_relu hOp]
          exact .rectifier hOp hOperands hDenotes
      rw [hHolders] at hConclude
      rw [conclude_cons]
      exact hConclude

------------------------------------------------------------
-- Stores
------------------------------------------------------------

/- A request stores a used value and changes no value. -/
theorem Exports.effect
    (hExports : s.Exports n s') :
    ∃ v, s.value? n = some v ∧
      s'.values = (s.fetch n v).values ∧
      s'.program = (s.fetch n v).program ++ [.store v.tensor] ∧
      (s.fetch n v).bench.tensors.Extends s'.bench.tensors := by
  cases hExports with
  | again hValue => exact ⟨_, hValue, rfl, rfl, .refl _⟩
  | @first v tensor hValue hTensor hNew =>
      refine ⟨v, hValue, rfl, rfl, ?_⟩
      rw [bench_fetch]
      apply TensorTable.extends_modify
      intro tensor' hTensor'
      cases hTensor.symm.trans hTensor'
      exact ⟨rfl, rfl, rfl, by simp [hNew], fun l hLocation => hLocation⟩

/-
  When some nodes are done, tensors hold what they mean, and the
  requested ones among these nodes are stored once.
-/
structure Faithful
    (p : Plan ν)
    (I : Interpretation ν V)
    (home env : TensorId → V)
    (done : List ν)
    (s : Lowering ν) : Prop where
  maps : s.Maps p done
  means : s.Means p I home env
  store_denotes :
    ∀ t x, (t, x) ∈ I.semantics.stores home s.program env →
      ∃ n v, n ∈ p.outputs ∧ n ∈ done ∧ (n, v) ∈ s.values ∧
        v.tensor = t ∧ p.network.Denotes I n x
  stored_once :
    ∀ n ∈ p.outputs, n ∈ done →
      ∃ v x, (n, v) ∈ s.values ∧
        (I.semantics.stores home s.program env).filter
          (fun e => e.1 = v.tensor) = [(v.tensor, x)]

namespace Faithful

/- The next node that is not requested. -/
theorem inner
    (hFaithful : s.Faithful p I home env done)
    (hInner : n ∉ p.outputs)
    (hMaps : s'.Maps p (done ++ [n]))
    (hMeans : s'.Means p I home env)
    (hAdds : s.Adds s') :
    s'.Faithful p I home env (done ++ [n]) := by
  refine ⟨hMaps, hMeans, ?_, ?_⟩
  · intro t x hStore
    rw [hAdds.stores_eq] at hStore
    rcases hFaithful.store_denotes t x hStore with
      ⟨k, u, hOutput, hDone, hEntry, hTensor, hDenotes⟩
    exact ⟨k, u, hOutput, List.mem_append_left _ hDone,
      hAdds.values _ hEntry, hTensor, hDenotes⟩
  · intro k hOutput hMem
    rw [hAdds.stores_eq]
    rcases List.mem_append.mp hMem with hDone | hLast
    · rcases hFaithful.stored_once k hOutput hDone with
        ⟨u, x, hEntry, hOnce⟩
      exact ⟨u, x, hAdds.values _ hEntry, hOnce⟩
    · rcases List.mem_singleton.mp hLast with rfl
      exact absurd hOutput hInner

/- The next node that is requested, and stored. -/
theorem requested
    {s₁ : Lowering ν}
    (hFaithful : s.Faithful p I home env done)
    (hNew : n ∉ done)
    (hOutput : n ∈ p.outputs)
    (hHomes : s₁.Homes p I home)
    (hMaps : s₁.Maps p (done ++ [n]))
    (hMeans : s₁.Means p I home env)
    (hAdds : s.Adds s₁)
    (hExports : s₁.Exports n s') :
    s'.Faithful p I home env (done ++ [n]) := by
  rcases hExports.effect with ⟨v, hValue, hValues, hProgram, hExtends⟩
  have hMeans₂ := hMeans.fetch hMaps hHomes hValue
  have hMaps₂ := (hMaps.fetch hValue).of_values_eq hValues hExtends
  have hAdds₂ : s.Adds (s₁.fetch n v) := hAdds.trans .fetch
  have hEntries : ∀ entry ∈ s.values, entry ∈ s'.values := by
    intro entry hEntry
    rw [hValues]
    exact hAdds₂.values entry hEntry
  have hReady : (n, { v with needsLoad := false }) ∈ s'.values := by
    rw [hValues]
    apply mem_values_of_value?
    rw [value?_fetch hValue, if_pos rfl]
  -- The value that is stored is the one that the node denotes.
  let y := (s₁.fetch n v).result I home env v.tensor
  have hDenotes : p.network.Denotes I n y := by
    rw [hValues] at hReady
    have hMeaning := hMeans₂ n _ hReady rfl
    rwa [Plan.meaning_of_output hOutput] at hMeaning
  have hStores :
      I.semantics.stores home s'.program env =
        I.semantics.stores home s.program env ++ [(v.tensor, y)] := by
    rw [hProgram, Semantics.stores_snoc, hAdds₂.stores_eq]
    rfl
  -- Requested nodes that share a tensor are one node.
  have hSame :
      ∀ k u, k ∈ p.outputs → (k, u) ∈ s'.values →
        u.tensor = v.tensor → k = n := by
    intro k u hOutput' hEntry hTensor
    have hMeaning := hMaps₂.shared k u n _ hEntry hReady hTensor
    rwa [Plan.meaning_of_output hOutput', Plan.meaning_of_output hOutput]
      at hMeaning
  refine ⟨hMaps₂, ?_, ?_, ?_⟩
  · intro k u hEntry hLoad
    rw [hValues] at hEntry
    have hResult :
        s'.result I home env = (s₁.fetch n v).result I home env := by
      unfold result
      rw [hProgram, Semantics.exec_snoc]
      rfl
    rw [hResult]
    exact hMeans₂ k u hEntry hLoad
  · intro t x hStore
    rw [hStores] at hStore
    rcases List.mem_append.mp hStore with hOld | hLast
    · rcases hFaithful.store_denotes t x hOld with
        ⟨k, u, hOutput', hDone, hEntry, hTensor, hDenotes'⟩
      exact ⟨k, u, hOutput', List.mem_append_left _ hDone,
        hEntries _ hEntry, hTensor, hDenotes'⟩
    · cases List.mem_singleton.mp hLast
      exact ⟨n, _, hOutput, by simp, hReady, rfl, hDenotes⟩
  · intro k hOutput' hMem
    rw [hStores]
    rcases List.mem_append.mp hMem with hDone | hLast
    · rcases hFaithful.stored_once k hOutput' hDone with
        ⟨u, x, hEntry, hOnce⟩
      refine ⟨u, x, hEntries _ hEntry, ?_⟩
      have hOther : v.tensor ≠ u.tensor := by
        intro hTensor
        have hK := hSame k u hOutput' (hEntries _ hEntry) hTensor.symm
        exact hNew (hK ▸ hDone)
      rw [List.filter_append, hOnce]
      simp [hOther]
    · rcases List.mem_singleton.mp hLast with rfl
      refine ⟨_, y, hReady, ?_⟩
      have hNone :
          (I.semantics.stores home s.program env).filter
            (fun e => e.1 = v.tensor) = [] := by
        rw [List.filter_eq_nil_iff]
        intro e hStore hTensor
        rcases hFaithful.store_denotes e.1 e.2 hStore with
          ⟨k', u, hOutput', hDone, hEntry, hTensor', -⟩
        have hTensors : u.tensor = v.tensor :=
          hTensor'.trans (of_decide_eq_true hTensor)
        have hK := hSame k' u hOutput' (hEntries _ hEntry) hTensors
        exact hNew (hK ▸ hDone)
      rw [List.filter_append, hNone]
      simp

/- One node is lowered. -/
theorem lowers
    (hFaithful : s.Faithful p I home env done)
    (hHomes : s'.Homes p I home)
    (hOrdered : p.network.Ordered done)
    (hNew : n ∉ done)
    (hNode : n ∈ p.nodes)
    (hLowers : s.Lowers p n s') :
    s'.Faithful p I home env (done ++ [n]) := by
  cases hLowers with
  | inner hComputes hInner =>
      have hAdds := Adds.computes hComputes
      have hBefore : s.Homes p I home :=
        fun k u hEntry => hHomes k u (hAdds.values _ hEntry)
      rcases hFaithful.means.computes hFaithful.maps hBefore hOrdered
          hNew hNode hComputes with
        ⟨hMaps, hMeans⟩
      exact hFaithful.inner hInner hMaps hMeans hAdds
  | @requested s₁ _ hComputes hOutput hExports =>
      have hAdds := Adds.computes hComputes
      have hMiddle : s₁.Homes p I home := by
        intro k u hEntry
        apply hHomes k u
        rcases hExports.effect with ⟨v, -, hValues, -⟩
        rw [hValues]
        exact Adds.fetch.values _ hEntry
      have hBefore : s.Homes p I home :=
        fun k u hEntry => hMiddle k u (hAdds.values _ hEntry)
      rcases hFaithful.means.computes hFaithful.maps hBefore hOrdered
          hNew hNode hComputes with
        ⟨hMaps, hMeans⟩
      exact hFaithful.requested hNew hOutput hMiddle hMaps hMeans hAdds
        hExports

end Faithful

theorem Lowers.values_subset
    (hLowers : s.Lowers p n s') :
    ∀ entry ∈ s.values, entry ∈ s'.values := by
  intro entry hEntry
  cases hLowers with
  | inner hComputes _ => exact (Adds.computes hComputes).values entry hEntry
  | requested hComputes _ hExports =>
      rcases hExports.effect with ⟨v, -, hValues, -⟩
      rw [hValues]
      exact Adds.fetch.values _
        ((Adds.computes hComputes).values entry hEntry)

/- All nodes of an ordered list are lowered. -/
theorem LowersAll.faithful
    {bench : Workbench}
    (hAll : (Lowering.start bench).LowersAll p done s)
    (hOrdered : p.network.Ordered done)
    (hHomes : s.Homes p I home) :
    s.Faithful p I home env done := by
  induction hAll with
  | nil =>
      refine ⟨⟨?_, ?_, ?_, ?_, ?_, ?_⟩, ?_, ?_, ?_⟩
      all_goals simp [Lowering.start, Means, Semantics.stores]
  | @snoc done n s₁ s' _ _ hNode hLast ih =>
      rcases hOrdered.of_snoc with ⟨hInit, hNew, -⟩
      have hBefore : s₁.Homes p I home :=
        fun k u hEntry => hHomes k u (hLast.values_subset _ hEntry)
      exact (ih hInit hBefore).lowers hHomes hInit hNew hNode hLast

/- Which nodes share a tensor does not depend on any value. -/
theorem LowersAll.faithful_unit
    {bench : Workbench}
    (hAll : (Lowering.start bench).LowersAll p done s)
    (hOrdered : p.network.Ordered done) :
    s.Faithful p .unit (fun _ => ()) (fun _ => ()) done :=
  hAll.faithful hOrdered (fun _ _ _ _ => rfl)

end Tensors

------------------------------------------------------------
-- Programs
------------------------------------------------------------

/- The tensor of a node. -/
def tensor?
    (s : Lowering ν)
    (n : ν) : Option TensorId :=
  (s.value? n).map (·.tensor)

/-
  What each tensor is loaded with: the value of the source whose
  tensor it is.
-/
def homes
    (I : Interpretation ν V)
    (env : TensorId → V)
    (s : Lowering ν)
    (t : TensorId) : V :=
  match s.values.find? (fun entry => entry.2.tensor = t) with
  | some (n, _) => I.source n
  | none => env t

theorem Maps.homes
    (hMaps : s.Maps p done)
    (I : Interpretation ν V)
    (env : TensorId → V) :
    s.Homes p I (s.homes I env) := by
  intro n v hEntry hSource
  unfold Lowering.homes
  cases hFind : s.values.find? (fun entry => entry.2.tensor = v.tensor) with
  | none =>
      have hNone := List.find?_eq_none.mp hFind (n, v) hEntry
      simp at hNone
  | some entry =>
      rcases entry with ⟨k, u⟩
      have hTensor := List.find?_some hFind
      have hMem := List.mem_of_find?_eq_some hFind
      have hMeaning := hMaps.shared k u n v hMem hEntry
        (of_decide_eq_true hTensor)
      rw [Plan.meaning_of_source hSource] at hMeaning
      -- A source is not a rectifier, so no node is fused into it.
      cases hFused : p.fused? k with
      | none =>
          rw [Plan.meaning, hFused, Option.getD_none] at hMeaning
          simp only [hMeaning]
      | some r =>
          rw [Plan.meaning, hFused, Option.getD_some] at hMeaning
          have hOp := (Plan.fused?_eq_some hFused).2.2.1
          rw [hMeaning] at hOp
          rw [hOp] at hSource
          cases hSource

theorem Maps.tensor?_eq
    (hMaps : s.Maps p done)
    (hEntry : (n, v) ∈ s.values) :
    s.tensor? n = some v.tensor := by
  rcases Option.isSome_iff_exists.mp (value?_isSome_of_mem hEntry) with
    ⟨u, hU⟩
  have hSame := hMaps.functional n u v (mem_values_of_value? hU) hEntry
  rw [tensor?, hU, Option.map_some, hSame]

/- Nodes of one tensor mean the same. -/
theorem Maps.meaning_eq
    {k : ν}
    {u : Value}
    (hMaps : s.Maps p done)
    (hEntry : (n, v) ∈ s.values)
    (hEntry' : (k, u) ∈ s.values)
    (hSame : s.tensor? n = s.tensor? k) :
    p.meaning n = p.meaning k := by
  rw [hMaps.tensor?_eq hEntry, hMaps.tensor?_eq hEntry'] at hSame
  exact hMaps.shared n v k u hEntry hEntry' (Option.some.inj hSame)

/- Every requested node is stored. -/
theorem LowersAll.exists_store
    {bench : Workbench}
    (hAll : (Lowering.start bench).LowersAll p done s)
    (hOrdered : p.network.Ordered done)
    (hOutput : n ∈ p.outputs)
    (hDone : n ∈ done) :
    ∃ t, s.tensor? n = some t ∧ .store t ∈ s.program := by
  have hFaithful := hAll.faithful_unit hOrdered
  rcases hFaithful.stored_once n hOutput hDone with
    ⟨v, x, hEntry, hOnce⟩
  refine ⟨v.tensor, hFaithful.maps.tensor?_eq hEntry, ?_⟩
  apply Semantics.mem_of_mem_stores
  apply List.mem_of_mem_filter
  rw [hOnce]
  exact List.mem_singleton.mpr rfl

end Lowering

/-
  Lowering preserves meaning. Every store writes what the network
  denotes for a requested node whose tensor it is, and every
  requested node is stored exactly once, to the place where the
  host looks for it.
-/
theorem lowerNodes_preserves_meaning
    [DecidableEq ν]
    (net : Network ν)
    (outputs : List String)
    {m : Machine}
    {bench bench' : Workbench}
    {ns : List ν}
    {program : List Operation}
    (hBench : Workbench.ofMachine m = .ok bench)
    (hOrder : net.order outputs = .ok ns)
    (hLower : lowerNodes net outputs ns bench = .ok (program, bench'))
    (I : Interpretation ν V)
    (env : TensorId → V) :
    ∃ (roots : List ν) (s : Lowering ν),
      net.roots outputs = .ok roots ∧
      (ns.forM (Lower.node { network := net, nodes := ns
                             outputs := roots }))
        (Lowering.start bench) = .ok () s ∧
      s.program = program ∧ s.bench = bench' ∧
      (∀ t x, (t, x) ∈ I.semantics.stores (s.homes I env) program env →
        ∃ n ∈ roots, s.tensor? n = some t ∧ net.Denotes I n x) ∧
      (∀ n ∈ roots, ∃ t x tensor l,
        s.tensor? n = some t ∧
        bench'.tensors.get? t = some tensor ∧ tensor.exported = some l ∧
        (∀ y, net.Denotes I n y ↔ y = x) ∧
        (I.semantics.stores (s.homes I env) program env).filter
          (fun e => e.1 = t) = [(t, x)]) ∧
      ∀ n ∈ roots, ∀ k ∈ roots, s.tensor? n = s.tensor? k → n = k := by
  rcases Workbench.ofMachine_ok hBench with ⟨hSize, layout, -, rfl⟩
  rcases net.order_ordered hOrder with ⟨roots, hRoots, hOrdered, hMem⟩
  rcases lowered_of_lowerNodes hSize hLower with
    ⟨roots', s, ⟨hRoots', hAll, hSound, hRun⟩, rfl, rfl⟩
  cases hRoots.symm.trans hRoots'
  let p : Plan ν := { network := net, nodes := ns, outputs := roots }
  have hMaps : s.Maps p ns := (hAll.faithful_unit hOrdered).maps
  have hFaithful : s.Faithful p I (s.homes I env) env ns :=
    hAll.faithful hOrdered (hMaps.homes I env)
  refine ⟨roots, s, hRoots, hRun, rfl, rfl, ?_, ?_, ?_⟩
  · intro t x hStore
    rcases hFaithful.store_denotes t x hStore with
      ⟨n, v, hOutput, -, hEntry, rfl, hDenotes⟩
    exact ⟨n, hOutput, hMaps.tensor?_eq hEntry, hDenotes⟩
  · intro n hOutput
    rcases hFaithful.stored_once n hOutput (hMem n hOutput) with
      ⟨v, x, hEntry, hOnce⟩
    have hStore :
        (v.tensor, x) ∈ I.semantics.stores (s.homes I env) s.program env := by
      apply List.mem_of_mem_filter
      rw [hOnce]
      exact List.mem_singleton.mpr rfl
    have hDenotes : net.Denotes I n x := by
      rcases hFaithful.store_denotes _ x hStore with
        ⟨k, u, hOutput', -, hEntry', hTensor, hDenotes⟩
      have hMeaning := hMaps.shared k u n v hEntry' hEntry hTensor
      rw [Plan.meaning_of_output hOutput', Plan.meaning_of_output hOutput]
        at hMeaning
      exact hMeaning ▸ hDenotes
    cases hSound.program.typed (I.semantics.mem_of_mem_stores _ hStore) with
    | @store _ tensor hHolds hExported =>
        rcases Option.isSome_iff_exists.mp hExported with ⟨l, hLocation⟩
        refine ⟨v.tensor, x, tensor, l, hMaps.tensor?_eq hEntry, hHolds.1,
          hLocation, ?_, hOnce⟩
        intro y
        constructor
        · intro hY
          exact hY.unique hDenotes
        · intro hY
          rw [hY]
          exact hDenotes
  · intro n hOutput k hOutput' hTensors
    rcases hFaithful.stored_once n hOutput (hMem n hOutput) with
      ⟨v, -, hEntry, -⟩
    rcases hFaithful.stored_once k hOutput' (hMem k hOutput') with
      ⟨u, -, hEntry', -⟩
    rw [hMaps.tensor?_eq hEntry, hMaps.tensor?_eq hEntry'] at hTensors
    have hMeaning := hMaps.shared n v k u hEntry hEntry'
      (Option.some.inj hTensors)
    rwa [Plan.meaning_of_output hOutput, Plan.meaning_of_output hOutput']
      at hMeaning

/- The operations of the block, whose rectifier is fused. -/
def residualProgram : List Operation :=
  [ .load ⟨0⟩, .load ⟨1⟩, .matMul ⟨0⟩ ⟨1⟩ none ⟨2⟩, .activate ⟨2⟩ ⟨3⟩ .relu,
    .store ⟨3⟩, .accumulate ⟨3⟩ ⟨4⟩ false, .accumulate ⟨0⟩ ⟨4⟩ true,
    .activate ⟨4⟩ ⟨5⟩ .identity, .store ⟨5⟩ ]

/-
  The product of the block and its rectifier have one tensor,
  which an activation writes. The rectified value is stored and
  read again, though the product is negative.
-/
theorem lowerNodes_preserves_meaning_residualBlock :
    ∃ (bench : Workbench) (s : Lowering (Fin 5)),
      lowerNodes residualBlock ["rectified", "sum"] [0, 1, 2, 3, 4]
        residualBench = .ok (residualProgram, bench) ∧
      s.program = residualProgram ∧
      s.tensor? 2 = some ⟨3⟩ ∧ s.tensor? 3 = some ⟨3⟩ ∧
      s.tensor? 4 = some ⟨5⟩ ∧
      (residualBlockValues.semantics.stores
          (s.homes residualBlockValues (fun _ => 0)) residualProgram
          (fun _ => 0)).filter (fun e => e.1 = ⟨3⟩) = [(⟨3⟩, 0)] ∧
      (residualBlockValues.semantics.stores
          (s.homes residualBlockValues (fun _ => 0)) residualProgram
          (fun _ => 0)).filter (fun e => e.1 = ⟨5⟩) = [(⟨5⟩, 3)] := by
  have hBench : Workbench.ofMachine .standard = .ok residualBench := by
    decide +kernel
  have hOrder :
      residualBlock.order ["rectified", "sum"] = .ok [0, 1, 2, 3, 4] := by
    decide +kernel
  have hRoots :
      residualBlock.roots ["rectified", "sum"] = .ok [3, 4] := by
    decide +kernel
  have hSome :
      (lowerNodes residualBlock ["rectified", "sum"] [0, 1, 2, 3, 4]
        residualBench).toOption.isSome = true := by
    decide +kernel
  have hFused :
      (match (([0, 1, 2, 3, 4] : List (Fin 5)).forM
          (Lower.node
            { network := residualBlock, nodes := [0, 1, 2, 3, 4]
              outputs := [3, 4] }))
          (Lowering.start residualBench) with
        | .ok _ s =>
            decide (s.program = residualProgram ∧
              s.tensor? 2 = some ⟨3⟩ ∧ s.tensor? 3 = some ⟨3⟩ ∧
              s.tensor? 4 = some ⟨5⟩)
        | .error _ _ => false) = true := by
    decide +kernel
  cases hLower :
      lowerNodes residualBlock ["rectified", "sum"] [0, 1, 2, 3, 4]
        residualBench with
  | error e =>
      rw [hLower] at hSome
      cases hSome
  | ok result =>
      rcases lowerNodes_preserves_meaning residualBlock
          ["rectified", "sum"] hBench hOrder hLower residualBlockValues
          (fun _ => 0) with
        ⟨roots, s, hRoots', hRun, hProgram, -, -, hOnce, -⟩
      cases hRoots.symm.trans hRoots'
      rw [hRun] at hFused
      rcases of_decide_eq_true hFused with
        ⟨hOperations, hProductTensor, hRectifiedTensor, hSumTensor⟩
      rcases result with ⟨program, bench⟩
      cases hProgram.symm.trans hOperations
      have hInput : residualBlock.Denotes residualBlockValues 0 3 :=
        .source trivial
      have hWeights : residualBlock.Denotes residualBlockValues 1 (-2) :=
        .source trivial
      have hProduct : residualBlock.Denotes residualBlockValues 2 (-6) :=
        .product rfl rfl hInput hWeights
      have hRectified : residualBlock.Denotes residualBlockValues 3 0 :=
        .rectifier rfl rfl hProduct
      have hSum : residualBlock.Denotes residualBlockValues 4 3 :=
        .sum rfl rfl hRectified hInput
      refine ⟨bench, s, rfl, hOperations, hProductTensor, hRectifiedTensor,
        hSumTensor, ?_, ?_⟩
      · rcases hOnce 3 (by simp) with
          ⟨t, x, -, -, hTensor, -, -, hValue, hStored⟩
        cases hRectifiedTensor.symm.trans hTensor
        rw [← (hValue 0).mp hRectified] at hStored
        exact hStored
      · rcases hOnce 4 (by simp) with
          ⟨t, x, -, -, hTensor, -, -, hValue, hStored⟩
        cases hSumTensor.symm.trans hTensor
        rw [← (hValue 3).mp hSum] at hStored
        exact hStored

end Systolic
