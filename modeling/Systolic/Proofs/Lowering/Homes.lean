import Systolic.Proofs.Graph.Needed
import Systolic.Proofs.Lowering.Meaning
import Systolic.Proofs.Lowering.Steady

/-
  This file proves that lowering packs the places of tensors in
  DRAM, and that it loads every input and constant that it gives
  a place: each of them is an output or an operand, and is loaded
  where it is used for the first time.

  Key definitions include:
    * `Lowering.WaitsFor`
    * `Lowering.Sourced`
    * `Plan.Consumed`

  Key theorems include:
    * `Lowering.LowersAll.packed`
    * `Lowering.Sourced.computes`
    * `Lowering.LowersAll.loaded`
-/

namespace Systolic

variable {ν : Type}

namespace Lowering

variable {done : List ν}

------------------------------------------------------------
-- Packing
------------------------------------------------------------

variable [DecidableEq ν]
variable {p : Plan ν} {s s' : Lowering ν} {n : ν}

/- Lowering packs DRAM: places are in their banks and leave no gap. -/
theorem LowersAll.packed
    (hPacked : s.bench.tensors.Packs s.bench.dram)
    (hAll : s.LowersAll p done s') :
    s'.bench.tensors.Packs s'.bench.dram := by
  refine hAll.steady (I := fun w => w.tensors.Packs w.dram) ?_ hPacked
  have hGrow :
      ∀ (s : Lowering ν) name layout role kind,
        s.bench.tensors.Packs s.bench.dram →
          (s.grow name layout role kind).bench.tensors.Packs s.bench.dram :=
    fun _ _ _ _ _ hPacked =>
      hPacked.add (by intro slot; cases slot <;> rfl)
  constructor
  case source =>
    intro s n name _ layout role bank _ _ _ hBank hPacked
    have hNew :=
      (TensorTable.get?_add s.bench.tensors
        { name, layout, role, kind := .scratchpad
          home := none, exported := none, spilled := none }
        s.next).trans (if_pos rfl)
    exact TensorTable.Packs.reserve
      (hGrow s name layout role .scratchpad hPacked) hNew rfl hBank
  case grow =>
    exact fun s _ name _ layout role kind _ _ _ hPacked =>
      hGrow s name layout role kind hPacked
  case exported =>
    exact fun _ _ _ hTensor hNew hPacked => hPacked.reserve hTensor hNew rfl

------------------------------------------------------------
-- Nodes That Wait
------------------------------------------------------------

/- A node waits for its tensor to be loaded. -/
def WaitsFor
    (s : Lowering ν)
    (n : ν)
    (t : TensorId) : Prop :=
  ∃ v, s.value? n = some v ∧ v.needsLoad = true ∧ v.tensor = t

/-
  Every tensor with a home is loaded, or a node waits for it that
  is not used yet.
-/
def Sourced
    (s : Lowering ν)
    (used : ν → Prop) : Prop :=
  ∀ t tensor, s.bench.tensors.get? t = some tensor →
    tensor.home.isSome →
      .load t ∈ s.program ∨ ∃ k, ¬ used k ∧ s.WaitsFor k t

namespace Sourced

variable {used used' : ν → Prop}

section

variable (hSourced : s.Sourced used)
include hSourced

theorem weaken
    (hUsed : ∀ k, used' k → used k) :
    s.Sourced used' := by
  intro t tensor hTensor hHome
  rcases hSourced t tensor hTensor hHome with hLoad | ⟨k, hFree, hWaits⟩
  · exact .inl hLoad
  · exact .inr ⟨k, fun hUsed' => hFree (hUsed k hUsed'), hWaits⟩

/- A node that waits for nothing may count as used. -/
theorem mark
    (hReady : ∀ t, ¬ s.WaitsFor n t) :
    s.Sourced (fun k => used k ∨ k = n) := by
  intro t tensor hTensor hHome
  rcases hSourced t tensor hTensor hHome with hLoad | ⟨k, hFree, hWaits⟩
  · exact .inl hLoad
  · refine .inr ⟨k, ?_, hWaits⟩
    rintro (hUsed | rfl)
    · exact hFree hUsed
    · exact hReady t hWaits

theorem push
    (op : Operation) :
    (s.push op).Sourced used := by
  intro t tensor hTensor hHome
  rcases hSourced t tensor hTensor hHome with hLoad | hWaits
  · exact .inl (List.mem_append_left _ hLoad)
  · exact .inr hWaits

theorem grow
    (name : String)
    (layout : VectorLayout)
    (role : TensorRole)
    (kind : MemoryKind) :
    (s.grow name layout role kind).Sourced used := by
  intro t tensor hTensor hHome
  have hGet := (TensorTable.get?_add _ _ t).symm.trans hTensor
  split at hGet
  · cases hGet
    cases hHome
  · exact hSourced t tensor hGet hHome

/- A node that is used does not wait any more. -/
theorem fetch
    {v : Value}
    (hValue : s.value? n = some v) :
    (s.fetch n v).Sourced (fun k => used k ∨ k = n) := by
  cases hLoad : v.needsLoad with
  | false =>
      have hSame : s.fetch n v = s := by simp [Lowering.fetch, hLoad]
      rw [hSame]
      apply hSourced.mark
      rintro t ⟨u, hU, hWaits, -⟩
      cases hValue.symm.trans hU
      rw [hLoad] at hWaits
      cases hWaits
  | true =>
      have hProgram : (s.fetch n v).program = s.program ++ [.load v.tensor] := by
        simp [Lowering.fetch, hLoad, Lowering.push, Lowering.define]
      intro t tensor hTensor hHome
      rw [bench_fetch] at hTensor
      rw [hProgram]
      rcases hSourced t tensor hTensor hHome with
        hOld | ⟨k, hFree, u, hU, hWaits, rfl⟩
      · exact .inl (List.mem_append_left _ hOld)
      · by_cases hSame : k = n
        · subst hSame
          cases hValue.symm.trans hU
          exact .inl (List.mem_append_right _ (List.mem_singleton.mpr rfl))
        · refine .inr ⟨k, ?_, u, ?_, hWaits, rfl⟩
          · rintro (hUsed | hEq)
            · exact hFree hUsed
            · exact hSame hEq
          · rw [value?_fetch hValue, if_neg hSame]
            exact hU

theorem fetches
    {ns : List ν}
    {ts : List TensorId}
    (hFetches : s.Fetches ns ts s') :
    s'.Sourced (fun k => used k ∨ k ∈ ns) := by
  induction hFetches generalizing used with
  | nil => exact hSourced.weaken (by simp)
  | cons hValue _ ih =>
      refine (ih (hSourced.fetch hValue)).weaken ?_
      intro k hUsed
      simpa [or_assoc] using hUsed

/- Nodes that get a new value must not wait for an old one. -/
theorem conclude
    {name : String}
    {layout : VectorLayout}
    {acc : TensorId}
    {activation : Activation}
    {holders : List ν}
    (hHolders : ∀ k ∈ holders, ∀ t, ¬ s.WaitsFor k t) :
    (s.conclude name layout acc [] activation holders).Sourced used := by
  have hPushed :
      ((s.grow name layout .intermediate .scratchpad).push
        (.activate acc s.next activation)).Sourced used :=
    (hSourced.grow name layout .intermediate .scratchpad).push _
  intro t tensor hTensor hHome
  rcases hPushed t tensor hTensor hHome with
    hLoad | ⟨k, hFree, v, hV, hWaits, rfl⟩
  · left
    simpa [Lowering.conclude, Lowering.push, Lowering.grow] using hLoad
  · refine .inr ⟨k, hFree, v, ?_, hWaits, rfl⟩
    have hOther : k ∉ holders := by
      intro hMem
      exact hHolders k hMem v.tensor ⟨v, hV, hWaits, rfl⟩
    have hNone :
        (holders.map (fun n =>
          (n, ({ tensor := s.next, shape := layout.shape
                 needsLoad := false } : Value)))).find?
          (fun entry => entry.1 = k) = none := by
      rw [List.find?_eq_none]
      intro entry hEntry hSame
      rcases List.mem_map.mp hEntry with ⟨h, hMem, rfl⟩
      rw [← of_decide_eq_true hSame] at hOther
      exact hOther hMem
    have hOld : s.value? k = some v := hV
    unfold value? Lowering.conclude
    rw [List.find?_append, hNone, Option.none_or]
    exact hOld

/- A new input or constant waits for its tensor. -/
theorem source
    {name : String}
    {layout : VectorLayout}
    {role : TensorRole}
    {bank : DramBank}
    (hFree : ¬ used n)
    (hNew : s.value? n = none) :
    (s.source n name layout role bank).Sourced used := by
  have hValue := value?_define s n (v :=
    { tensor := s.next, shape := layout.shape, needsLoad := true })
  intro t tensor hTensor hHome
  rw [get?_source] at hTensor
  split at hTensor
  case isTrue hNext =>
    exact .inr ⟨n, hFree, _, (hValue n).trans (if_pos rfl), rfl,
      hNext.symm⟩
  case isFalse =>
    rcases hSourced t tensor hTensor hHome with
      hLoad | ⟨k, hFree', v, hV, hWaits⟩
    · exact .inl hLoad
    · refine .inr ⟨k, hFree', v, ?_, hWaits⟩
      refine (hValue k).trans ?_
      rw [if_neg, hV]
      rintro rfl
      rw [hNew] at hV
      cases hV

/- A requested node is used. -/
theorem exports
    (hExports : s.Exports n s') :
    s'.Sourced (fun k => used k ∨ k = n) := by
  cases hExports with
  | again hValue _ _ => exact (hSourced.fetch hValue).push _
  | @first v tensor hValue hTensor _ _ =>
      refine Sourced.push (s := { s.fetch n v with bench := _ }) ?_ _
      intro t grown hGrown hHome
      have hGet := (TensorTable.get?_modify _ _ _ _).symm.trans hGrown
      -- A place for the host is no home.
      have hOld :
          ∃ old, s.bench.tensors.get? t = some old ∧ old.home.isSome := by
        split at hGet
        case isTrue =>
          rcases Option.map_eq_some_iff.mp hGet with ⟨old, hOld, rfl⟩
          exact ⟨old, hOld, hHome⟩
        case isFalse => exact ⟨grown, hGet, hHome⟩
      rcases hOld with ⟨old, hOld, hHome⟩
      rw [← bench_fetch s n v] at hOld
      exact hSourced.fetch hValue t old hOld hHome

end

end Sourced

------------------------------------------------------------
-- Nodes That Are Lowered
------------------------------------------------------------

/- What waits is a source. -/
theorem Maps.isSource
    {k : ν}
    {t : TensorId}
    (hMaps : s.Maps p done)
    (hWaits : s.WaitsFor k t) :
    (p.network.op k).IsSource := by
  rcases hWaits with ⟨v, hValue, hLoad, -⟩
  exact hMaps.waiting k v (mem_values_of_value? hValue) hLoad

/- The result of a product, a sum or a rectifier does not wait. -/
theorem Maps.not_waits_of_mem_holders
    {k : ν}
    (hMaps : s.Maps p done)
    (hOp : ¬ (p.network.op n).IsSource)
    (hMem : k ∈ p.holders n)
    (t : TensorId) :
    ¬ s.WaitsFor k t := by
  intro hWaits
  have hSource := hMaps.isSource hWaits
  rcases List.mem_cons.mp hMem with rfl | hFused
  · exact hOp hSource
  · have hFound : p.fused? n = some k := Option.mem_toList.mp hFused
    rw [(Plan.fused?_eq_some hFound).2.2.1] at hSource
    exact hSource

/- A node that is computed uses its operands. -/
theorem Sourced.computes
    {used : ν → Prop}
    (hSourced : s.Sourced used)
    (hMaps : s.Maps p done)
    (hOrdered : p.network.Ordered done)
    (hNew : n ∉ done)
    (hFree : ¬ used n)
    (hComputes : s.Computes p n s') :
    s'.Sourced (fun k => used k ∨ k ∈ p.network.operands n) := by
  cases hComputes with
  | @source _ layout name role bank hOp _ _ _ _ hLeaf =>
      have hNone : s.value? n = none := by
        cases hValue : s.value? n with
        | none => rfl
        | some v =>
            refine absurd (mem_values_of_value? hValue)
              (hMaps.holders_new hOrdered hNew ?_ List.mem_cons_self v)
            rcases hOp with hOp | hOp <;> simp [hOp]
      refine (hSourced.source hFree hNone).weaken ?_
      intro k hUsed
      simpa [hLeaf] using hUsed
  | known hOp hValue =>
      -- The rectifier is fused into its operand, which is no source.
      rcases Option.isSome_iff_exists.mp hValue with ⟨v, hV⟩
      rcases hMaps.defined n v (mem_values_of_value? hV) with
        hDone | ⟨a, -, hFused⟩
      · exact absurd hDone hNew
      · rcases Plan.fused?_eq_some hFused with ⟨hFusible, -, -, hOperands⟩
        refine (hSourced.mark (n := a) ?_).weaken ?_
        · intro t hWaits
          have hSource := hMaps.isSource hWaits
          rcases hFusible.1 with hOp' | hOp' <;>
            exact (hOp' ▸ hSource : NodeOp.IsSource _)
        · intro k hUsed
          simpa [hOperands] using hUsed
  | @product x w bias xv wv k columns tx tw tb s₁ layout name name' hOp
      hOperands _ _ _ _ _ _ hFetches =>
      have hGrown :=
        (hSourced.fetches hFetches).grow name layout .accumulator
          .accumulator
      have hMaps₁ := hMaps.fetches hFetches
      rw [conclude_cons, hOperands]
      refine (hGrown.push _).conclude ?_
      intro k hMem t
      exact hMaps₁.not_waits_of_mem_holders (by rw [hOp]; exact id) hMem t
  | @sum a b av bv bv' layout name name' s₁ s₂ hOp hOperands hA _ _ _
      hFirst hB' _ hSecond =>
      let grown := s.grow name layout .accumulator .accumulator
      have hMapsG : grown.Maps p done :=
        hMaps.of_values_eq rfl (TensorTable.extends_add _ _)
      have hMaps₁ : s₁.Maps p done := by
        rw [hFirst]
        exact (hMapsG.fetch hA).of_values_eq rfl (.refl _)
      have hMaps₂ : s₂.Maps p done := by
        rw [hSecond]
        exact (hMaps₁.fetch hB').of_values_eq rfl (.refl _)
      have hSourced₁ : s₁.Sourced (fun k => used k ∨ k = a) := by
        rw [hFirst]
        exact ((hSourced.grow name layout .accumulator
          .accumulator).fetch hA).push _
      have hSourced₂ :
          s₂.Sourced (fun k => (used k ∨ k = a) ∨ k = b) := by
        rw [hSecond]
        exact (hSourced₁.fetch hB').push _
      refine (hSourced₂.conclude ?_).weaken ?_
      · intro k hMem t
        exact hMaps₂.not_waits_of_mem_holders (by rw [hOp]; exact id) hMem t
      · intro k hUsed
        simpa [hOperands, or_assoc] using hUsed
  | @rectifier a v layout name name' s₁ hOp hOperands _ hA _ hFirst =>
      have hMaps₁ : s₁.Maps p done := by
        rw [hFirst]
        exact (hMaps.fetch hA).of_values_eq rfl
          (TensorTable.extends_add _ _)
      have hSourced₁ : s₁.Sourced (fun k => used k ∨ k = a) := by
        rw [hFirst]
        exact (hSourced.fetch hA).grow name layout .accumulator .accumulator
      rw [conclude_cons]
      refine ((hSourced₁.push _).conclude ?_).weaken ?_
      · intro k hMem t
        have hHolder : k ∈ p.holders n := by
          rcases List.mem_singleton.mp hMem with rfl
          exact List.mem_cons_self
        exact hMaps₁.not_waits_of_mem_holders (by rw [hOp]; exact id)
          hHolder t
      · intro k hUsed
        simpa [hOperands] using hUsed

end Lowering

/- A requested node that is done, or an operand of a node that is. -/
def Plan.Consumed
    (p : Plan ν)
    (done : List ν)
    (k : ν) : Prop :=
  (k ∈ done ∧ k ∈ p.outputs) ∨ ∃ n ∈ done, k ∈ p.network.operands n

namespace Lowering

variable [DecidableEq ν]
variable {p : Plan ν} {s s' : Lowering ν} {n : ν}

/- Lowering a node loads what is consumed with it. -/
theorem Sourced.lowers
    {done : List ν}
    (hSourced : s.Sourced (p.Consumed done))
    (hMaps : s.Maps p done)
    (hOrdered : p.network.Ordered done)
    (hNew : n ∉ done)
    (hLowers : s.Lowers p n s') :
    s'.Sourced (p.Consumed (done ++ [n])) := by
  have hFree : ¬ p.Consumed done n := by
    rintro (⟨hDone, -⟩ | ⟨m, hDone, hOperand⟩)
    · exact hNew hDone
    · exact hNew (hOrdered.closed hDone hOperand)
  have hCases :
      ∀ k, p.Consumed (done ++ [n]) k →
        (p.Consumed done k ∨ k ∈ p.network.operands n) ∨
          (n ∈ p.outputs ∧ k = n) := by
    rintro k (⟨hDone, hOutput⟩ | ⟨m, hDone, hOperand⟩)
    · rcases List.mem_append.mp hDone with hDone | hLast
      · exact .inl (.inl (.inl ⟨hDone, hOutput⟩))
      · rcases List.mem_singleton.mp hLast with rfl
        exact .inr ⟨hOutput, rfl⟩
    · rcases List.mem_append.mp hDone with hDone | hLast
      · exact .inl (.inl (.inr ⟨m, hDone, hOperand⟩))
      · rcases List.mem_singleton.mp hLast with rfl
        exact .inl (.inr hOperand)
  cases hLowers with
  | inner hComputes hInner =>
      refine (hSourced.computes hMaps hOrdered hNew hFree
        hComputes).weaken ?_
      intro k hConsumed
      rcases hCases k hConsumed with hUsed | ⟨hOutput, -⟩
      · exact hUsed
      · exact absurd hOutput hInner
  | requested hComputes _ hExports =>
      refine ((hSourced.computes hMaps hOrdered hNew hFree
        hComputes).exports hExports).weaken ?_
      intro k hConsumed
      rcases hCases k hConsumed with hUsed | ⟨-, hSame⟩
      · exact .inl hUsed
      · exact .inr hSame

theorem LowersAll.sourced
    {bench : Workbench}
    {done : List ν}
    (hEmpty : bench.tensors = .empty)
    (hAll : (Lowering.start bench).LowersAll p done s)
    (hOrdered : p.network.Ordered done) :
    s.Sourced (p.Consumed done) := by
  induction hAll with
  | nil =>
      intro t tensor hTensor
      simp [Lowering.start, hEmpty, TensorTable.get?, TensorTable.empty]
        at hTensor
  | snoc hDone _ _ hLast ih =>
      rcases hOrdered.of_snoc with ⟨hInit, hNew, -⟩
      exact (ih hInit).lowers (hDone.faithful_unit hInit).maps hInit hNew
        hLast

/-
  Every input and constant that outputs need is loaded: it is one
  of the outputs or an operand of a node that is lowered.
-/
theorem LowersAll.loaded
    {net : Network ν}
    {outputs : List String}
    {nodes roots : List ν}
    {bench : Workbench}
    {t : TensorId}
    {tensor : Tensor}
    (hEmpty : bench.tensors = .empty)
    (hOrder : net.order outputs = .ok nodes)
    (hRoots : net.roots outputs = .ok roots)
    (hAll :
      (Lowering.start bench).LowersAll
        { network := net, nodes, outputs := roots } nodes s)
    (hTensor : s.bench.tensors.get? t = some tensor)
    (hHome : tensor.home.isSome) :
    .load t ∈ s.program := by
  rcases net.order_ordered hOrder with ⟨_, _, hOrdered, _⟩
  rcases hAll.sourced hEmpty hOrdered t tensor hTensor hHome with
    hLoad | ⟨k, hFree, hWaits⟩
  · exact hLoad
  · have hMaps := (hAll.faithful_unit hOrdered).maps
    have hSource := hMaps.isSource hWaits
    rcases hWaits with ⟨v, hValue, -, -⟩
    have hNode : k ∈ nodes := by
      rcases hMaps.defined k v (mem_values_of_value? hValue) with
        hDone | ⟨a, -, hFused⟩
      · exact hDone
      · rw [(Plan.fused?_eq_some hFused).2.2.1] at hSource
        cases hSource
    have hNeeded := (Network.mem_order_iff hOrder).mp hNode
    rcases hNeeded.cases_roots hRoots with hRoot | ⟨m, hM, hOperand⟩
    · exact absurd (.inl ⟨hNode, hRoot⟩) hFree
    · exact absurd
        (.inr ⟨m, (Network.mem_order_iff hOrder).mpr hM, hOperand⟩) hFree

end Lowering

end Systolic
