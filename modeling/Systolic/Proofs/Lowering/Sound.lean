import Mathlib.Data.List.Forall2
import Systolic.Proofs.Lowering.Node
import Systolic.Proofs.Program.WellFormed

/-
  This file proves that lowering keeps its state sound: the
  program is well-formed, tensors lie apart in DRAM, and every
  value is a tensor of its shape that either has been written
  or can still be loaded. This holds for any list of nodes.

  Key definitions include:
    * `Lowering.Carries`
    * `Lowering.Sound`
    * `Lowering.Lowers`
    * `Lowering.LowersAll`

  Key theorems include:
    * `Lowering.Sound.computes`
    * `Lowering.Sound.exports`
    * `Lower.node_ensures`
    * `lowerNodes_cases`
-/

namespace Systolic

variable {ν : Type}
variable {m : Machine} {p : Plan ν}

namespace Lowering

variable {s : Lowering ν} {t : TensorId}

theorem written_fetch
    {n : ν}
    {v : Value}
    {t : TensorId} :
    t ∈ written (s.fetch n v).program ↔
      t ∈ written s.program ∨ (v.needsLoad = true ∧ v.tensor = t) := by
  unfold fetch
  split
  case isTrue hLoad =>
    simp [Lowering.push, Lowering.define, Operation.writes, hLoad]
  case isFalse hLoad => simp [hLoad]

theorem activated_fetch
    {n : ν}
    {v : Value}
    {t : TensorId} :
    t ∈ activated (s.fetch n v).program ↔ t ∈ activated s.program := by
  unfold fetch
  split
  case isTrue =>
    simp [Lowering.push, Lowering.define, Operation.activates]
  case isFalse => rfl

theorem ne_next
    {tensor : Tensor}
    (hTensor : s.bench.tensors.get? t = some tensor) :
    t ≠ s.next :=
  TensorTable.ne_next_of_get? hTensor

/- The tensors after a new input or constant. -/
theorem get?_source
    (s : Lowering ν)
    (n : ν)
    (name : String)
    (layout : VectorLayout)
    (role : TensorRole)
    (bank : DramBank)
    (t : TensorId) :
    (s.source n name layout role bank).bench.tensors.get? t =
      if t = s.next then
        some
          { name, layout, role, kind := .scratchpad
            home := some { bank, address := s.bench.dram.used bank }
            exported := none, spilled := none }
      else s.bench.tensors.get? t := by
  have hModify :=
    TensorTable.get?_modify
      (s.grow name layout role .scratchpad).bench.tensors s.next t
      (·.setSlot .home
        (some { bank, address := s.bench.dram.used bank }))
  have hAdd := TensorTable.get?_add s.bench.tensors
    { name, layout, role, kind := .scratchpad
      home := none, exported := none, spilled := none } t
  refine hModify.trans ?_
  by_cases hNext : t = s.next
  · have hNew : t = s.bench.tensors.next := hNext
    rw [if_pos hNext, if_pos hNext]
    exact (congrArg _ (hAdd.trans (if_pos hNew))).trans rfl
  · have hOld : ¬ t = s.bench.tensors.next := hNext
    rw [if_neg hNext, if_neg hNext]
    exact hAdd.trans (if_neg hOld)

theorem LiesFlat.grow
    (hFlat : s.LiesFlat t)
    (name : String)
    (layout : VectorLayout)
    (role : TensorRole)
    (kind : MemoryKind) :
    (s.grow name layout role kind).LiesFlat t := by
  rcases hFlat with ⟨tensor, hTensor, hVariable⟩
  exact ⟨tensor, get?_grow hTensor name layout role kind, hVariable⟩

theorem LiesFlat.fetch
    (hFlat : s.LiesFlat t)
    (k : ν)
    (v : Value) :
    (s.fetch k v).LiesFlat t := by
  unfold LiesFlat
  rw [bench_fetch]
  exact hFlat

/- An accumulator tensor of a given layout that is not activated. -/
structure Opened
    (s : Lowering ν)
    (acc : TensorId)
    (layout : VectorLayout) : Prop where
  holds :
    ∃ tensor, s.bench.tensors.Holds acc .accumulator tensor ∧
      tensor.layout = layout
  not_activated : acc ∉ activated s.program

theorem Opened.fetch
    {acc : TensorId}
    {layout : VectorLayout}
    (hOpened : s.Opened acc layout)
    (n : ν)
    (v : Value) :
    (s.fetch n v).Opened acc layout := by
  refine ⟨?_, ?_⟩
  · rw [bench_fetch]
    exact hOpened.holds
  · rw [activated_fetch]
    exact hOpened.not_activated

theorem Opened.push
    {acc : TensorId}
    {layout : VectorLayout}
    {op : Operation}
    (hOpened : s.Opened acc layout)
    (hOp : op.activates = none) :
    (s.push op).Opened acc layout := by
  refine ⟨hOpened.holds, ?_⟩
  intro hActivated
  rcases mem_activated_push.mp hActivated with hOld | hNew
  · exact hOpened.not_activated hOld
  · rw [hOp] at hNew
    cases hNew

end Lowering

------------------------------------------------------------
-- Sound States
------------------------------------------------------------

variable [DecidableEq ν]

/- The layout of an input or constant has its shape and some vectors. -/
theorem Plan.sourceLayout_ok
    {n : ν}
    {shape : List Nat}
    {size : Nat}
    {layout : VectorLayout}
    (hSize : 0 < size)
    (hShape : IsShape shape)
    (hLayout : p.sourceLayout n shape size = .ok layout) :
    layout.shape = shape ∧ layout.vectorSize = size ∧
      layout.Proper := by
  unfold Plan.sourceLayout at hLayout
  split at hLayout
  case isTrue => exact VectorLayout.ofConstant_ok hSize hShape hLayout
  case isFalse =>
    have hKnown := VectorLayout.ofVariable_ok hLayout
    exact ⟨hKnown.1, hKnown.2.1,
      VectorLayout.ofVariable_proper hSize hShape hLayout⟩

/- A tensor that is not off the chip and not empty. -/
structure Tensor.Fresh (tensor : Tensor) : Prop where
  proper : tensor.layout.Proper
  spilled_eq : tensor.spilled = none

namespace Lowering

variable {s : Lowering ν} {n : ν} {v : Value}
variable {tensor : Tensor}

/- The value of a node is a tensor that is ready or can be loaded. -/
structure Carries
    (p : Plan ν)
    (s : Lowering ν)
    (n : ν)
    (v : Value)
    (tensor : Tensor) : Prop where
  holds : s.bench.tensors.Holds v.tensor .scratchpad tensor
  shape : IsShape v.shape
  layout_shape : tensor.layout.shape = v.shape
  layout_size : tensor.layout.vectorSize = s.bench.machine.arraySize
  constant :
    (p.network.op n).IsConstant →
      p.sourceLayout n v.shape s.bench.machine.arraySize =
        .ok tensor.layout
  waiting :
    v.needsLoad = true →
      tensor.home.isSome ∧ v.tensor ∉ written s.program
  ready : v.needsLoad = false → v.tensor ∈ written s.program

/- What holds between the nodes. -/
structure Sound
    (p : Plan ν)
    (s : Lowering ν) : Prop where
  size_pos : 0 < s.bench.machine.arraySize
  fresh :
    ∀ t tensor, s.bench.tensors.get? t = some tensor → tensor.Fresh
  laid : s.bench.tensors.Laid s.bench.dram
  program :
    WellFormed s.bench.machine.arraySize s.bench.tensors s.program
  values :
    ∀ n v, s.value? n = some v → ∃ tensor, s.Carries p n v tensor
  loads :
    ∀ n v n' v', s.value? n = some v → s.value? n' = some v' →
      v.needsLoad = true → v.tensor = v'.tensor → n = n'
  stored :
    ∀ t tensor, s.bench.tensors.get? t = some tensor →
      tensor.exported.isSome → .store t ∈ s.program

/- A value is carried on by a larger table and no new writes. -/
theorem Carries.extend
    {s' : Lowering ν}
    (hCarries : s.Carries p n v tensor)
    (hExtends : s.bench.tensors.Extends s'.bench.tensors)
    (hMachine : s'.bench.machine = s.bench.machine)
    (hWritten :
      v.tensor ∈ written s'.program ↔ v.tensor ∈ written s.program) :
    ∃ grown, s'.Carries p n v grown := by
  rcases hCarries.holds.extend hExtends with ⟨grown, hHolds, hGrows⟩
  refine ⟨grown, ?_⟩
  constructor
  case holds => exact hHolds
  case shape => exact hCarries.shape
  case layout_shape =>
    rw [hGrows.layout_eq]
    exact hCarries.layout_shape
  case layout_size =>
    rw [hGrows.layout_eq, hMachine]
    exact hCarries.layout_size
  case constant =>
    rw [hGrows.layout_eq, hMachine]
    exact hCarries.constant
  case waiting =>
    rw [hGrows.home_eq, hWritten]
    exact hCarries.waiting
  case ready =>
    rw [hWritten]
    exact hCarries.ready

theorem Sound.known
    (hSound : s.Sound p) :
    s.Known := by
  intro n v hValue
  rcases hSound.values n v hValue with ⟨tensor, hCarries⟩
  exact ⟨tensor, hCarries.holds.1⟩

/- A value that lies flat has the layout of a variable of its shape. -/
theorem Carries.layout_of_flat
    (hCarries : s.Carries p n v tensor)
    (hFlat : s.LiesFlat v.tensor) :
    VectorLayout.ofVariable v.shape s.bench.machine.arraySize =
      .ok tensor.layout := by
  rcases hFlat with ⟨flat, hGet, hVariable⟩
  cases hCarries.holds.1.symm.trans hGet
  unfold VectorLayout.IsVariable at hVariable
  rwa [hCarries.layout_shape, hCarries.layout_size] at hVariable

/- A constant that is a vector takes as many vectors as it has tiles. -/
theorem Carries.depth_of_vector
    {columns : Nat}
    (hCarries : s.Carries p n v tensor)
    (hConstant : (p.network.op n).IsConstant)
    (hVector : v.shape = [columns]) :
    tensor.layout.depth =
      Count.ceilDiv columns s.bench.machine.arraySize := by
  have hStored := hCarries.constant hConstant
  rw [hVector, Plan.sourceLayout] at hStored
  rw [VectorLayout.ofConstant_of_length_lt (by simp), ite_self] at hStored
  exact VectorLayout.depth_ofVariable_vector hStored

theorem Sound.next_not_written
    (hSound : s.Sound p) :
    s.next ∉ written s.program := by
  intro hWritten
  rcases hSound.program.get?_written hWritten with ⟨tensor, hTensor⟩
  exact ne_next hTensor rfl

namespace Sound

------------------------------------------------------------
-- Operations and Tensors
------------------------------------------------------------

/- An operation that may follow keeps a state sound. -/
theorem push
    {op : Operation}
    (hSound : s.Sound p)
    (hAdmits :
      Admits s.bench.machine.arraySize s.bench.tensors s.program op)
    (hLoads :
      ∀ n v, s.value? n = some v → v.needsLoad = true →
        op.writes ≠ some v.tensor) :
    (s.push op).Sound p where
  size_pos := hSound.size_pos
  fresh := hSound.fresh
  laid := hSound.laid
  program := hSound.program.push hAdmits
  values := by
    intro n v hValue
    rcases hSound.values n v hValue with ⟨tensor, hCarries⟩
    refine ⟨tensor, { hCarries with waiting := ?_, ready := ?_ }⟩
    · intro hLoad
      rcases hCarries.waiting hLoad with ⟨hHome, hUnwritten⟩
      refine ⟨hHome, ?_⟩
      intro hWritten
      rcases mem_written_push.mp hWritten with hOld | hNew
      · exact hUnwritten hOld
      · exact hLoads n v hValue hLoad hNew
    · intro hLoad
      exact mem_written_push.mpr (.inl (hCarries.ready hLoad))
  loads := hSound.loads
  stored := by
    intro t tensor hTensor hExported
    exact List.mem_append_left _ (hSound.stored t tensor hTensor hExported)

/- A new tensor without places in DRAM keeps a state sound. -/
theorem grow
    {name : String}
    {layout : VectorLayout}
    {role : TensorRole}
    {kind : MemoryKind}
    (hSound : s.Sound p)
    (hProper : layout.Proper) :
    (s.grow name layout role kind).Sound p where
  size_pos := hSound.size_pos
  fresh := by
    intro t tensor hTensor
    have hGet := (TensorTable.get?_add _ _ t).symm.trans hTensor
    split at hGet
    · cases hGet
      exact ⟨hProper, rfl⟩
    · exact hSound.fresh t tensor hGet
  laid := hSound.laid.add (by intro slot; cases slot <;> rfl)
  program := hSound.program.extend (TensorTable.extends_add _ _)
  values := by
    intro n v hValue
    rcases hSound.values n v hValue with ⟨tensor, hCarries⟩
    exact hCarries.extend (TensorTable.extends_add _ _) rfl .rfl
  loads := hSound.loads
  stored := by
    intro t tensor hTensor hExported
    have hGet := (TensorTable.get?_add _ _ t).symm.trans hTensor
    split at hGet
    · cases hGet
      cases hExported
    · exact hSound.stored t tensor hGet hExported

/- A value that is ready keeps a state sound. -/
theorem define
    (hSound : s.Sound p)
    (hCarries : s.Carries p n v tensor)
    (hReady : v.needsLoad = false) :
    (s.define n v).Sound p where
  size_pos := hSound.size_pos
  fresh := hSound.fresh
  laid := hSound.laid
  program := hSound.program
  values := by
    intro k u hValue
    rw [value?_define] at hValue
    split at hValue
    case isTrue hSame =>
      cases hValue
      subst hSame
      exact ⟨tensor, { hCarries with }⟩
    case isFalse =>
      rcases hSound.values k u hValue with ⟨tensor', hOld⟩
      exact ⟨tensor', { hOld with }⟩
  loads := by
    intro k u k' u' hValue hValue' hLoad hTensors
    rw [value?_define] at hValue hValue'
    split at hValue
    case isTrue =>
      cases hValue
      rw [hReady] at hLoad
      cases hLoad
    case isFalse =>
      -- A tensor that waits to be loaded is not one that is ready.
      split at hValue'
      case isTrue =>
        cases hValue'
        rcases hSound.values k u hValue with ⟨tensor', hOld⟩
        have hUnwritten := (hOld.waiting hLoad).2
        rw [hTensors] at hUnwritten
        exact absurd (hCarries.ready hReady) hUnwritten
      case isFalse =>
        exact hSound.loads k u k' u' hValue hValue' hLoad hTensors
  stored := hSound.stored

------------------------------------------------------------
-- Operands
------------------------------------------------------------

/- Using a node keeps a state sound. -/
theorem fetch
    (hSound : s.Sound p)
    (hValue : s.value? n = some v) :
    (s.fetch n v).Sound p := by
  rcases hSound.values n v hValue with ⟨tensor, hCarries⟩
  unfold Lowering.fetch
  split
  case isFalse => exact hSound
  case isTrue hLoad =>
    rcases hCarries.waiting hLoad with ⟨hHome, hUnwritten⟩
    have hAdmits :
        Admits s.bench.machine.arraySize s.bench.tensors s.program
          (.load v.tensor) := by
      refine ⟨.load hCarries.holds hHome, ?_, ?_, ?_⟩
      · simp [Operation.reads]
      · intro t hWrites
        cases hWrites
        exact hUnwritten
      · simp [Operation.reads]
    -- Only this node waits for its tensor, and it is ready afterwards.
    refine ⟨hSound.size_pos, hSound.fresh, hSound.laid,
      hSound.program.push hAdmits, ?_, ?_, ?_⟩
    · intro k u hU
      have hU' := (value?_define s n k _).symm.trans hU
      split at hU'
      case isTrue hSame =>
        cases hU'
        subst hSame
        refine ⟨tensor, { hCarries with waiting := ?_, ready := ?_ }⟩
        · intro hFalse
          cases hFalse
        · intro _
          exact mem_written_push.mpr (.inr rfl)
      case isFalse hOther =>
        rcases hSound.values k u hU' with ⟨tensor', hOld⟩
        refine ⟨tensor', { hOld with waiting := ?_, ready := ?_ }⟩
        · intro hWaits
          refine ⟨(hOld.waiting hWaits).1, ?_⟩
          intro hWritten
          rcases mem_written_push.mp hWritten with hBefore | hNow
          · exact (hOld.waiting hWaits).2 hBefore
          · have hSame : u.tensor = v.tensor :=
              (Option.some.inj hNow).symm
            exact hOther
              (hSound.loads k u n v hU' hValue hWaits hSame)
        · intro hReady
          exact mem_written_push.mpr (.inl (hOld.ready hReady))
    · intro k u k' u' hU hU' hWaits hTensors
      have hU₁ := (value?_define s n k _).symm.trans hU
      have hU₂ := (value?_define s n k' _).symm.trans hU'
      split at hU₁
      case isTrue =>
        cases hU₁
        cases hWaits
      case isFalse hOther =>
        split at hU₂
        case isTrue =>
          cases hU₂
          exact absurd
            (hSound.loads k u n v hU₁ hValue hWaits hTensors) hOther
        case isFalse =>
          exact hSound.loads k u k' u' hU₁ hU₂ hWaits hTensors
    · intro t tensor' hTensor hExported
      exact List.mem_append_left _
        (hSound.stored t tensor' hTensor hExported)

end Sound

/- Nodes that are used have their tensors written. -/
theorem Sound.fetches
    {s' : Lowering ν}
    {ns : List ν}
    {ts : List TensorId}
    (hSound : s.Sound p)
    (hFetches : s.Fetches ns ts s') :
    s'.Sound p ∧
      (∀ t ∈ written s.program, t ∈ written s'.program) ∧
      List.Forall₂
        (fun n t =>
          ∃ v, s.value? n = some v ∧ v.tensor = t ∧
            t ∈ written s'.program)
        ns ts := by
  induction hFetches with
  | nil => exact ⟨hSound, fun _ h => h, .nil⟩
  | @cons s s' n v ns ts hValue hRest ih =>
      have hNext := hSound.fetch hValue
      rcases ih hNext with ⟨hEnd, hMono, hAll⟩
      have hReady : v.tensor ∈ written (s.fetch n v).program := by
        rcases hSound.values n v hValue with ⟨tensor, hCarries⟩
        rw [written_fetch]
        cases hLoad : v.needsLoad with
        | true => exact .inr ⟨rfl, rfl⟩
        | false => exact .inl (hCarries.ready hLoad)
      refine ⟨hEnd, ?_, .cons ⟨v, hValue, rfl, hMono _ hReady⟩ ?_⟩
      · intro t hWritten
        exact hMono t (written_fetch.mpr (.inl hWritten))
      · refine hAll.imp ?_
        intro k t hK
        rcases hK with ⟨u, hU, hTensor, hWritten⟩
        rw [value?_fetch hValue] at hU
        split at hU
        case isTrue hSame =>
          subst hSame
          cases hU
          exact ⟨v, hValue, hTensor, hWritten⟩
        case isFalse => exact ⟨u, hU, hTensor, hWritten⟩

------------------------------------------------------------
-- Accumulator Tensors
------------------------------------------------------------

section Accumulators

variable {acc : TensorId} {layout : VectorLayout}

/- A new accumulator tensor is not activated. -/
theorem Sound.open
    (hSound : s.Sound p)
    (name : String)
    (layout : VectorLayout) :
    (s.grow name layout .accumulator .accumulator).Opened s.next layout := by
  refine ⟨?_, ?_⟩
  · refine ⟨_, ⟨(TensorTable.get?_add _ _ _).trans (if_pos rfl), rfl⟩,
      rfl⟩
  · intro hActivated
    rcases hSound.program.holds_activated hActivated with
      ⟨tensor, hHolds⟩
    exact ne_next hHolds.1 rfl

/- No value is an accumulator tensor. -/
theorem Opened.ne_value
    (hOpened : s.Opened acc layout)
    (hSound : s.Sound p)
    (hValue : s.value? n = some v) :
    acc ≠ v.tensor := by
  intro hSame
  rcases hSound.values n v hValue with ⟨tensor, hCarries⟩
  rcases hOpened.holds with ⟨other, hOther, -⟩
  rw [hSame] at hOther
  cases hCarries.holds.1.symm.trans hOther.1
  cases hCarries.holds.2.symm.trans hOther.2

/- Using a value does not write an accumulator tensor. -/
theorem Opened.not_written_fetch
    (hOpened : s.Opened acc layout)
    (hSound : s.Sound p)
    (hValue : s.value? n = some v)
    (hUnwritten : acc ∉ written s.program) :
    acc ∉ written (s.fetch n v).program := by
  intro hWritten
  rcases written_fetch.mp hWritten with hOld | ⟨-, hSame⟩
  · exact hUnwritten hOld
  · exact hOpened.ne_value hSound hValue hSame.symm

/-
  A filled accumulator tensor is activated into a new tensor,
  which becomes the value of nodes that are no constants.
-/
theorem Sound.conclude
    {name : String}
    {activation : Activation}
    {holders : List ν}
    (hSound : s.Sound p)
    (hOpened : s.Opened acc layout)
    (hFilled : acc ∈ written s.program)
    (hShape : IsShape layout.shape)
    (hSize : layout.vectorSize = s.bench.machine.arraySize)
    (hHolders : ∀ n ∈ holders, ¬ (p.network.op n).IsConstant) :
    (s.conclude name layout acc [] activation holders).Sound p := by
  rcases hOpened.holds with ⟨tensor, hHolds, rfl⟩
  have hFresh := hSound.fresh acc tensor hHolds.1
  let grown := s.grow name tensor.layout .intermediate .scratchpad
  have hGrown : grown.Sound p :=
    hSound.grow hFresh.proper
  have hAcc : grown.bench.tensors.Holds acc .accumulator tensor :=
    ⟨get?_grow hHolds.1 _ _ _ _, hHolds.2⟩
  have hOut :
      ∃ out, grown.bench.tensors.Holds s.next .scratchpad out ∧
        out.layout = tensor.layout ∧ out.home = none :=
    ⟨_, ⟨(TensorTable.get?_add _ _ _).trans (if_pos rfl), rfl⟩, rfl,
      rfl⟩
  rcases hOut with ⟨out, hOut, hLayout, hHome⟩
  have hAdmits :
      Admits grown.bench.machine.arraySize grown.bench.tensors
        grown.program (.activate acc s.next activation) := by
    refine ⟨.activate hAcc hOut hLayout.symm hHome, ?_, ?_, ?_⟩
    · intro t hRead
      rcases List.mem_singleton.mp hRead with rfl
      exact hFilled
    · intro t hWrites
      cases hWrites
      exact hSound.next_not_written
    · intro t hRead
      rcases List.mem_singleton.mp hRead with rfl
      exact hOpened.not_activated
  have hPushed : (grown.push (.activate acc s.next activation)).Sound p := by
    apply hGrown.push hAdmits
    intro n v hValue hLoad hSame
    rcases hSound.known n v hValue with ⟨old, hOld⟩
    have hTensor : s.next = v.tensor := Option.some.inj hSame
    exact ne_next hOld hTensor.symm
  -- The nodes get their value one after the other.
  induction holders with
  | nil =>
      simpa [Lowering.conclude, Lowering.push, Lowering.grow, grown]
        using hPushed
  | cons n ns ih =>
      have hRest := ih (fun k hMem =>
        hHolders k (List.mem_cons_of_mem _ hMem))
      have hCarries :
          (s.conclude name tensor.layout acc [] activation ns).Carries p n
            { tensor := s.next, shape := tensor.layout.shape
              needsLoad := false }
            out := by
        refine ⟨hOut, hShape, ?_, ?_, ?_, ?_, ?_⟩
        · rw [hLayout]
        · rw [hLayout]
          exact hSize
        · intro hConstant
          exact absurd hConstant (hHolders n List.mem_cons_self)
        · intro hLoad
          cases hLoad
        · intro _
          simp [Lowering.conclude, written, Operation.writes]
      exact hRest.define hCarries rfl

end Accumulators

------------------------------------------------------------
-- Sources
------------------------------------------------------------

section Nodes

variable {layout : VectorLayout}

/- A new input or constant keeps a state sound. -/
theorem Sound.source
    {name : String}
    {shape : List Nat}
    {role : TensorRole}
    {bank : DramBank}
    (hSound : s.Sound p)
    (hShape : IsShape shape)
    (hLayout :
      p.sourceLayout n shape s.bench.machine.arraySize = .ok layout)
    (hFits : s.bench.dram.used bank + layout.depth < Count.limit) :
    (s.source n name layout role bank).Sound p := by
  rcases Plan.sourceLayout_ok hSound.size_pos hShape hLayout with
    ⟨hSame, hSize, hProper⟩
  have hGet := s.get?_source n name layout role bank
  have hOld :
      ∀ t tensor, s.bench.tensors.get? t = some tensor →
        (s.source n name layout role bank).bench.tensors.get? t =
          some tensor := by
    intro t tensor hTensor
    rw [hGet, if_neg (ne_next hTensor), hTensor]
  have hNew := (hGet s.next).trans (if_pos rfl)
  have hCases :
      ∀ k u, (s.source n name layout role bank).value? k = some u →
        (k = n ∧ u = { tensor := s.next, shape := layout.shape
                       needsLoad := true }) ∨
        (k ≠ n ∧ s.value? k = some u) := by
    intro k u hU
    have hU' := (value?_define s n k _).symm.trans hU
    split at hU'
    case isTrue hK => exact .inl ⟨hK, (Option.some.inj hU').symm⟩
    case isFalse hK => exact .inr ⟨hK, hU'⟩
  refine ⟨hSound.size_pos, ?_, ?_, ?_, ?_, ?_, ?_⟩
  · intro t tensor hTensor
    rw [hGet] at hTensor
    split at hTensor
    · cases hTensor
      exact ⟨hProper, rfl⟩
    · exact hSound.fresh t tensor hTensor
  · have hLaid : (s.grow name layout role
        .scratchpad).bench.tensors.Laid s.bench.dram :=
      hSound.laid.add (by intro slot; cases slot <;> rfl)
    have hAdded :=
      (TensorTable.get?_add s.bench.tensors
        { name, layout, role, kind := .scratchpad
          home := none, exported := none, spilled := none }
        s.next).trans (if_pos rfl)
    exact hLaid.reserve hAdded .home bank hFits
  · exact hSound.program.extend
      (fun t tensor hTensor =>
        ⟨tensor, hOld t tensor hTensor, .refl tensor⟩)
  · intro k u hU
    rcases hCases k u hU with ⟨rfl, rfl⟩ | ⟨-, hU⟩
    · refine ⟨_, ⟨hNew, rfl⟩, hSame ▸ hShape, rfl, hSize, ?_, ?_, ?_⟩
      · intro _
        rw [hSame]
        exact hLayout
      · intro _
        exact ⟨rfl, hSound.next_not_written⟩
      · intro hFalse
        cases hFalse
    · rcases hSound.values k u hU with ⟨tensor, hCarries⟩
      refine ⟨tensor, { hCarries with holds := ⟨?_, hCarries.holds.2⟩ }⟩
      exact hOld _ tensor hCarries.holds.1
  · intro k u k' u' hU hU' hLoad hTensors
    rcases hCases k u hU with ⟨hK, rfl⟩ | ⟨-, hOldU⟩ <;>
      rcases hCases k' u' hU' with ⟨hK', rfl⟩ | ⟨-, hOldU'⟩
    · rw [hK, hK']
    · rcases hSound.known k' u' hOldU' with ⟨tensor, hTensor⟩
      exact absurd hTensors.symm (ne_next hTensor)
    · rcases hSound.known k u hOldU with ⟨tensor, hTensor⟩
      exact absurd hTensors (ne_next hTensor)
    · exact hSound.loads k u k' u' hOldU hOldU' hLoad hTensors
  · intro t tensor hTensor hExported
    rw [hGet] at hTensor
    split at hTensor
    · cases hTensor
      cases hExported
    · exact hSound.stored t tensor hTensor hExported

------------------------------------------------------------
-- Products, Sums and Rectifiers
------------------------------------------------------------

/- The result of a product or sum is no value of a constant. -/
theorem not_isConstant_of_mem_holders
    {k : ν}
    (hOp : ¬ (p.network.op n).IsConstant)
    (hMem : k ∈ p.holders n) :
    ¬ (p.network.op k).IsConstant := by
  rcases List.mem_cons.mp hMem with rfl | hFused
  · exact hOp
  · have hFound : p.fused? n = some k := Option.mem_toList.mp hFused
    rw [(Plan.fused?_eq_some hFound).2.2.1]
    exact id

/- An accumulation of a value into an open accumulator tensor. -/
theorem Sound.accumulate
    {acc : TensorId}
    {k : ν}
    (hSound : s.Sound p)
    (add : Bool)
    (hOpened : s.Opened acc layout)
    (hValue : s.value? k = some v)
    (hFlat : s.LiesFlat v.tensor)
    (hLayout :
      VectorLayout.ofVariable v.shape s.bench.machine.arraySize =
        .ok layout)
    (hWritten : if add then acc ∈ written s.program
      else acc ∉ written s.program) :
    ((s.fetch k v).push (.accumulate v.tensor acc add)).Sound p ∧
      ((s.fetch k v).push (.accumulate v.tensor acc add)).Opened
        acc layout ∧
      acc ∈ written ((s.fetch k v).push
        (.accumulate v.tensor acc add)).program := by
  rcases hSound.values k v hValue with ⟨tensor, hCarries⟩
  rcases hOpened.holds with ⟨out, hOut, rfl⟩
  have hSame : tensor.layout = out.layout :=
    Except.ok.inj ((hCarries.layout_of_flat hFlat).symm.trans hLayout)
  have hFetched := hSound.fetch hValue
  have hReady : v.tensor ∈ written (s.fetch k v).program := by
    rw [written_fetch]
    cases hLoad : v.needsLoad with
    | true => exact .inr ⟨rfl, rfl⟩
    | false => exact .inl (hCarries.ready hLoad)
  have hInput : v.tensor ∉ activated (s.fetch k v).program := by
    apply hFetched.program.not_activated
    rw [bench_fetch]
    exact hCarries.holds
  have hOpen := (hOpened.fetch k v).not_activated
  have hAdmits :
      Admits s.bench.machine.arraySize s.bench.tensors
        (s.fetch k v).program (.accumulate v.tensor acc add) := by
    refine ⟨.accumulate hCarries.holds hOut hSame, ?_, ?_, ?_⟩
    · intro t hRead
      cases add with
      | false =>
          rcases List.mem_singleton.mp hRead with rfl
          exact hReady
      | true =>
          have hMem := mem_distinct.mp hRead
          rcases List.mem_pair.mp hMem with rfl | rfl
          · exact hReady
          · exact written_fetch.mpr (.inl hWritten)
    · intro t hWrites
      cases add with
      | false =>
          cases hWrites
          exact hOpened.not_written_fetch hSound hValue hWritten
      | true => cases hWrites
    · intro t hRead
      cases add with
      | false =>
          rcases List.mem_singleton.mp hRead with rfl
          exact hInput
      | true =>
          have hMem := mem_distinct.mp hRead
          rcases List.mem_pair.mp hMem with rfl | rfl
          · exact hInput
          · exact hOpen
  refine ⟨hFetched.push ?_ ?_, (hOpened.fetch k v).push rfl, ?_⟩
  · rw [bench_fetch]
    exact hAdmits
  · intro k' v' hValue' _ hSame'
    have hAcc : acc = v'.tensor := by
      cases add with
      | false => exact Option.some.inj hSame'
      | true => cases hSame'
    exact (hOpened.fetch k v).ne_value hFetched hValue' hAcc
  · cases add with
    | false => exact mem_written_push.mpr (.inr rfl)
    | true =>
        exact mem_written_push.mpr
          (.inl (written_fetch.mpr (.inl hWritten)))

/- A product of used values into a new accumulator tensor. -/
theorem Sound.product
    {s₁ : Lowering ν}
    {x w : ν}
    {bias : Option ν}
    {xv wv : Value}
    {k columns : Nat}
    {tx tw : TensorId}
    {tb : Option TensorId}
    (hSound : s.Sound p)
    (name : String)
    (hNode : n ∈ p.nodes)
    (hOp : p.network.op n = .matMul)
    (hOperands : p.network.operands n = x :: w :: bias.toList)
    (hWeights : (p.network.op w).IsConstant)
    (hBias :
      ∀ b ∈ bias, (p.network.op b).IsConstant ∧
        ∃ v, s.value? b = some v ∧ v.shape = [columns])
    (hX : s.value? x = some xv)
    (hW : s.value? w = some wv)
    (hMatrix : wv.shape = [k, columns])
    (hInner : xv.shape.getLast? = some k)
    (hFetches :
      s.Fetches (x :: w :: bias.toList) (tx :: tw :: tb.toList) s₁)
    (hFlat : s.LiesFlat tx)
    (hLayout :
      VectorLayout.ofVariable (xv.shape.dropLast ++ [columns])
        s.bench.machine.arraySize = .ok layout) :
    Admits s.bench.machine.arraySize
      (s₁.grow name layout .accumulator .accumulator).bench.tensors
      s₁.program (.matMul tx tw tb s₁.next) := by
  rcases hSound.fetches hFetches with ⟨hSound₁, -, hAll⟩
  have hBench : s₁.bench = s.bench := hFetches.bench_eq
  rcases hAll with _ | ⟨⟨xv', hX', rfl, hReadyX⟩, hAll⟩
  rcases hAll with _ | ⟨⟨wv', hW', rfl, hReadyW⟩, hReadyB⟩
  cases hX.symm.trans hX'
  cases hW.symm.trans hW'
  rcases hSound.values x xv hX with ⟨a, hA⟩
  rcases hSound.values w wv hW with ⟨b, hB⟩
  have hInput := hA.layout_of_flat hFlat
  have hStored := hB.constant hWeights
  have hWeight : p.IsWeight w := ⟨n, hNode, hOp, by simp [hOperands]⟩
  rw [Plan.sourceLayout, if_pos ⟨hWeights, hWeight⟩, hMatrix] at hStored
  rcases VectorLayout.ofVariable_product hInner hInput hStored hLayout with
    ⟨hRows, hTiles, hPadded⟩
  -- The values stay where they are in the table that has the result.
  have hStays :
      ∀ t tensor, s.bench.tensors.Holds t .scratchpad tensor →
        (s₁.grow name layout .accumulator
          .accumulator).bench.tensors.Holds t .scratchpad tensor := by
    intro t tensor hHolds
    refine ⟨get?_grow ?_ _ _ _ _, hHolds.2⟩
    rw [hBench]
    exact hHolds.1
  have hOpen : ∀ t tensor, s.bench.tensors.Holds t .scratchpad tensor →
      t ∉ activated s₁.program := by
    intro t tensor hHolds
    apply hSound₁.program.not_activated
    rw [hBench]
    exact hHolds
  have hBiases :
      ∀ t ∈ tb, t ∈ written s₁.program ∧
        ∃ d, s.bench.tensors.Holds t .scratchpad d ∧
          d.layout.depth = layout.tiles := by
    intro t hMem
    cases bias with
    | none =>
        cases tb with
        | none => cases hMem
        | some t => cases hReadyB
    | some c =>
        cases tb with
        | none => cases hMem
        | some u =>
            cases hMem
            rcases hReadyB with _ | ⟨⟨v, hV, rfl, hReady⟩, -⟩
            rcases hBias c rfl with ⟨hConstant, v', hV', hVector⟩
            cases hV.symm.trans hV'
            rcases hSound.values c v hV with ⟨d, hD⟩
            refine ⟨hReady, d, hD.holds, ?_⟩
            rw [hD.depth_of_vector hConstant hVector, hTiles]
            exact (VectorLayout.ofConstant_matrix hStored).2.symm
  have hReads :
      ∀ t ∈ (Operation.matMul xv.tensor wv.tensor tb s₁.next).reads,
        t = xv.tensor ∨ t = wv.tensor ∨ t ∈ tb := by
    intro t hRead
    simpa [Operation.reads, mem_distinct] using hRead
  refine ⟨.matMul (hStays _ _ hA.holds) (hStays _ _ hB.holds)
    ⟨(TensorTable.get?_add _ _ _).trans (if_pos rfl), rfl⟩ hRows hTiles
    hPadded ?_, ?_, ?_, ?_⟩
  · intro t hMem
    rcases (hBiases t hMem).2 with ⟨d, hHolds, hDepth⟩
    exact ⟨d, hStays t d hHolds, hDepth⟩
  · intro t hRead
    rcases hReads t hRead with rfl | rfl | hMem
    · exact hReadyX
    · exact hReadyW
    · exact (hBiases t hMem).1
  · intro t hWrites
    cases hWrites
    exact hSound₁.next_not_written
  · intro t hRead
    rcases hReads t hRead with rfl | rfl | hMem
    · exact hOpen _ a hA.holds
    · exact hOpen _ b hB.holds
    · rcases (hBiases t hMem).2 with ⟨d, hHolds, -⟩
      exact hOpen t d hHolds

/- The computation of a node keeps a state sound. -/
theorem Sound.computes
    {s' : Lowering ν}
    (hSound : s.Sound p)
    (hNode : n ∈ p.nodes)
    (hComputes : s.Computes p n s') :
    s'.Sound p := by
  cases hComputes with
  | known => exact hSound
  | source _ hShape hLayout hFits => exact hSound.source hShape hLayout hFits
  | @product x w bias xv wv k columns tx tw tb s₁ layout name name' hOp
      hOperands hWeights hBias hX hW hMatrix hInner hFetches hFlat
      hLayout =>
      have hAdmits := hSound.product name hNode hOp hOperands hWeights
        hBias hX hW hMatrix hInner hFetches hFlat hLayout
      rcases hSound.fetches hFetches with ⟨hSound₁, -, -⟩
      have hShape : IsShape (xv.shape.dropLast ++ [columns]) := by
        rcases hSound.values x xv hX with ⟨a, hA⟩
        rcases hSound.values w wv hW with ⟨b, hB⟩
        exact hA.shape.product (hMatrix ▸ hB.shape)
      have hProper :=
        VectorLayout.ofVariable_proper hSound.size_pos hShape hLayout
      have hKnown := VectorLayout.ofVariable_ok hLayout
      rw [← hFetches.bench_eq] at hAdmits hKnown
      have hPushed := (hSound₁.grow hProper).push hAdmits (by
        intro k' v hValue _ hSame
        rcases hSound₁.known k' v hValue with ⟨tensor, hTensor⟩
        exact ne_next hTensor (Option.some.inj hSame).symm)
      rw [conclude_cons]
      refine hPushed.conclude ((hSound₁.open name layout).push rfl)
        (mem_written_push.mpr (.inr rfl)) ?_ hKnown.2.1 ?_
      · rw [hKnown.1]
        exact hShape
      · intro k' hMem
        apply not_isConstant_of_mem_holders _ hMem
        rw [hOp]
        exact id
  | @sum a b av bv bv' layout name name' s₁ s₂ hOp hOperands hA hB
      hShapes hLayout hFirst hB' hSame hSecond hFlat hFlat' =>
      rcases hSound.values a av hA with ⟨tensor, hCarries⟩
      have hProper :=
        VectorLayout.ofVariable_proper hSound.size_pos hCarries.shape hLayout
      have hKnown := VectorLayout.ofVariable_ok hLayout
      rcases (hSound.grow hProper).accumulate false
          (hSound.open name layout) hA (hFlat.grow ..) hLayout
          hSound.next_not_written with
        ⟨hSound₁, hOpened₁, hWritten₁⟩
      rw [← hFirst] at hSound₁ hOpened₁ hWritten₁
      have hBench : s₁.bench =
          (s.grow name layout .accumulator .accumulator).bench := by
        rw [hFirst, bench_push, bench_fetch]
      rcases hSound₁.accumulate true hOpened₁ hB' (by
          unfold LiesFlat
          rw [hBench, hSame.1]
          exact hFlat'.grow ..) (by
          rw [hBench, hSame.2, ← hShapes]
          exact hLayout) hWritten₁ with
        ⟨hSound₂, hOpened₂, hWritten₂⟩
      rw [← hSecond] at hSound₂ hOpened₂ hWritten₂
      have hMachine : s₂.bench.machine = s.bench.machine := by
        rw [hSecond, bench_push, bench_fetch, hBench, machine_grow]
      refine hSound₂.conclude hOpened₂ hWritten₂ ?_ ?_ ?_
      · rw [hKnown.1]
        exact hCarries.shape
      · rw [hMachine]
        exact hKnown.2.1
      · intro k' hMem
        apply not_isConstant_of_mem_holders _ hMem
        rw [hOp]
        exact id
  | @rectifier a v layout name name' s₁ hOp hOperands hNew hA hLayout
      hFirst hFlat =>
      rcases hSound.values a v hA with ⟨tensor, hCarries⟩
      have hProper :=
        VectorLayout.ofVariable_proper hSound.size_pos hCarries.shape hLayout
      have hKnown := VectorLayout.ofVariable_ok hLayout
      have hFetched := hSound.fetch hA
      have hBench : (s.fetch a v).bench = s.bench := bench_fetch s a v
      have hNext : (s.fetch a v).next = s.next := by
        rw [next, hBench, ← next]
      have hReady : s₁.value? a = some { v with needsLoad := false } := by
        rw [hFirst, value?_grow, value?_fetch hA, if_pos rfl]
      have hSound₁ : s₁.Sound p := by
        rw [hFirst]
        exact hFetched.grow hProper
      have hOpened₁ : s₁.Opened s.next layout := by
        rw [hFirst, ← hNext]
        exact hFetched.open name layout
      rcases hSound₁.accumulate false hOpened₁ hReady (by
          rw [hFirst]
          exact (hFlat.fetch a v).grow ..) (by
          rw [hFirst, machine_grow, hBench]
          exact hLayout) (by
          rw [hFirst, ← hNext]
          exact hFetched.next_not_written) with
        ⟨hSound₂, hOpened₂, hWritten₂⟩
      rw [conclude_cons]
      refine hSound₂.conclude hOpened₂ hWritten₂ ?_ ?_ ?_
      · rw [hKnown.1]
        exact hCarries.shape
      · rw [bench_push, bench_fetch, hFirst, machine_grow, hBench]
        exact hKnown.2.1
      · intro k' hMem
        rcases List.mem_singleton.mp hMem with rfl
        rw [hOp]
        exact id

------------------------------------------------------------
-- Requested Nodes
------------------------------------------------------------

/- A store of a used value with a place for the host. -/
theorem Sound.admits_store
    {table : TensorTable}
    (hSound : s.Sound p)
    (hValue : s.value? n = some v)
    (hHolds : table.Holds v.tensor .scratchpad tensor)
    (hExported : tensor.exported.isSome) :
    Admits s.bench.machine.arraySize table (s.fetch n v).program
      (.store v.tensor) := by
  rcases hSound.values n v hValue with ⟨old, hCarries⟩
  refine ⟨.store hHolds hExported, ?_, ?_, ?_⟩
  · intro t hRead
    rcases List.mem_singleton.mp hRead with rfl
    rw [written_fetch]
    cases hLoad : v.needsLoad with
    | true => exact .inr ⟨rfl, rfl⟩
    | false => exact .inl (hCarries.ready hLoad)
  · intro t hWrites
    cases hWrites
  · intro t hRead
    rcases List.mem_singleton.mp hRead with rfl
    rw [activated_fetch]
    exact hSound.program.not_activated hCarries.holds

/- A request for the value of a node keeps a state sound. -/
theorem Sound.exports
    {s' : Lowering ν}
    (hSound : s.Sound p)
    (hExports : s.Exports n s') :
    s'.Sound p := by
  cases hExports with
  | @again v tensor hValue hTensor hExported =>
      rcases hSound.values n v hValue with ⟨old, hCarries⟩
      cases hTensor.symm.trans hCarries.holds.1
      refine (hSound.fetch hValue).push ?_ (by simp [Operation.writes])
      rw [bench_fetch]
      exact hSound.admits_store hValue hCarries.holds hExported
  | @first v tensor hValue hTensor hNew hFits =>
      rcases hSound.values n v hValue with ⟨old, hCarries⟩
      cases hTensor.symm.trans hCarries.holds.1
      have hFetched := hSound.fetch hValue
      let table := (s.bench.reserved v.tensor .exported .dram0
        tensor.layout.depth).tensors
      let stored := tensor.setSlot .exported
        (some { bank := .dram0, address := s.bench.dram.used .dram0 })
      have hStored : table.Holds v.tensor .scratchpad stored := by
        refine ⟨?_, hCarries.holds.2⟩
        exact (TensorTable.get?_modify _ _ _ _).trans
          (by rw [if_pos rfl, hTensor]; rfl)
      have hOther :
          ∀ t, t ≠ v.tensor → table.get? t = s.bench.tensors.get? t := by
        intro t hNe
        exact (TensorTable.get?_modify _ _ _ _).trans (if_neg hNe)
      have hExtends : s.bench.tensors.Extends table := by
        apply TensorTable.extends_modify
        intro tensor' hTensor'
        cases hTensor.symm.trans hTensor'
        exact ⟨rfl, rfl, rfl, by simp [hNew], fun l hL => hL⟩
      have hGrown :
          ∀ t tensor', table.get? t = some tensor' →
            (t = v.tensor ∧ tensor' = stored) ∨
              (t ≠ v.tensor ∧ s.bench.tensors.get? t = some tensor') := by
        intro t tensor' hTensor'
        by_cases hSame : t = v.tensor
        · subst hSame
          exact .inl ⟨rfl, Option.some.inj (hTensor'.symm.trans hStored.1)⟩
        · exact .inr ⟨hSame, (hOther t hSame).symm.trans hTensor'⟩
      refine ⟨hSound.size_pos, ?_, ?_, ?_, ?_, hFetched.loads, ?_⟩
      · intro t tensor' hTensor'
        rcases hGrown t tensor' hTensor' with ⟨-, rfl⟩ | ⟨-, hOld⟩
        · have hFresh := hSound.fresh v.tensor tensor hTensor
          exact { hFresh with }
        · exact hSound.fresh t tensor' hOld
      · exact hSound.laid.reserve hTensor .exported .dram0 hFits
      · have hForm := hFetched.program
        rw [bench_fetch] at hForm
        exact (hForm.extend hExtends).push
          (hSound.admits_store hValue hStored rfl)
      · intro k u hU
        rcases hFetched.values k u hU with ⟨old, hOld⟩
        refine hOld.extend ?_ (by rw [bench_fetch]; rfl) ?_
        · rw [bench_fetch]
          exact hExtends
        · exact mem_written_push.trans
            (or_iff_left (by simp [Operation.writes]))
      · intro t tensor' hTensor' hExported
        apply List.mem_append.mpr
        rcases hGrown t tensor' hTensor' with ⟨rfl, -⟩ | ⟨-, hOld⟩
        · exact .inr (List.mem_singleton.mpr rfl)
        · left
          apply hFetched.stored t tensor' _ hExported
          rw [bench_fetch]
          exact hOld

end Nodes

end Lowering

------------------------------------------------------------
-- Programs
------------------------------------------------------------

/- A node is lowered to what it computes and its store. -/
inductive Lowering.Lowers
    (p : Plan ν)
    (n : ν)
    (s : Lowering ν) : Lowering ν → Prop
| inner {s' : Lowering ν}
    (hComputes : s.Computes p n s')
    (hInner : n ∉ p.outputs) :
    Lowers p n s s'
| requested {s₁ s' : Lowering ν}
    (hComputes : s.Computes p n s₁)
    (hOutput : n ∈ p.outputs)
    (hExports : s₁.Exports n s') :
    Lowers p n s s'

theorem Lowering.Sound.lowers
    {n : ν}
    {s s' : Lowering ν}
    (hSound : s.Sound p)
    (hNode : n ∈ p.nodes)
    (hLowers : s.Lowers p n s') :
    s'.Sound p := by
  cases hLowers with
  | inner hComputes _ => exact hSound.computes hNode hComputes
  | requested hComputes _ hExports =>
      exact (hSound.computes hNode hComputes).exports hExports

/- A node of the plan is lowered or refused. -/
theorem Lower.node_ensures
    {n : ν}
    {s : Lowering ν}
    (hSound : s.Sound p)
    (hNode : n ∈ p.nodes) :
    Ensures (Lower.node p n) s (·.Admissible m)
      (fun _ s' => s.Lowers p n s') := by
  refine (compute_ensures hSound.size_pos hSound.known).bind ?_
  intro _ s₁ hComputes
  have hSound₁ := hSound.computes hNode hComputes
  refine (finish_ensures hSound₁.known).weaken ?_
  intro _ s' hFinish
  split at hFinish
  case isTrue hOutput => exact .requested hComputes hOutput hFinish
  case isFalse hInner =>
    subst hFinish
    exact .inner hComputes hInner

/- Nodes of a plan are lowered one after the other. -/
inductive Lowering.LowersAll
    (p : Plan ν)
    (s : Lowering ν) : List ν → Lowering ν → Prop
| nil : LowersAll p s [] s
| snoc {done : List ν} {n : ν} {s₁ s' : Lowering ν}
    (hDone : LowersAll p s done s₁)
    (hSound : s₁.Sound p)
    (hNode : n ∈ p.nodes)
    (hLast : s₁.Lowers p n s') :
    LowersAll p s (done ++ [n]) s'

theorem Lower.forM_node_ensures
    {s : Lowering ν}
    {ns : List ν}
    (hSound : s.Sound p)
    (hNodes : ∀ n ∈ ns, n ∈ p.nodes) :
    Ensures (ns.forM (Lower.node p)) s (·.Admissible m)
      (fun _ s' => s.LowersAll p ns s' ∧ s'.Sound p) := by
  -- What is lowered and what is still to come make up the list.
  let I : List ν → Lowering ν → Prop := fun rest s' =>
    ∃ done, ns = done ++ rest ∧ s.LowersAll p done s' ∧ s'.Sound p
  have hRun : Ensures (ns.forM (Lower.node p)) s (·.Admissible m)
      (fun _ s' => I [] s') := by
    apply Ensures.forM I
    · exact ⟨[], rfl, .nil, hSound⟩
    · intro n rest s₁ hI
      rcases hI with ⟨done, rfl, hDone, hSound₁⟩
      have hNode : n ∈ p.nodes := hNodes n (by simp)
      refine (Lower.node_ensures hSound₁ hNode).weaken ?_
      intro _ s' hLowers
      exact ⟨done ++ [n], by simp, .snoc hDone hSound₁ hNode hLowers,
        hSound₁.lowers hNode hLowers⟩
  refine hRun.weaken ?_
  intro _ s' hI
  rcases hI with ⟨done, hAll, hDone, hSound'⟩
  rw [List.append_nil] at hAll
  subst hAll
  exact ⟨hDone, hSound'⟩

/- The array of a machine that is accepted is not empty. -/
theorem Workbench.ofMachine_ok
    {bench : Workbench}
    (hBench : Workbench.ofMachine m = .ok bench) :
    0 < m.arraySize ∧
      ∃ layout, m.check = .ok layout ∧ bench = .start m layout := by
  unfold ofMachine at hBench
  cases hCheck : m.check with
  | error fault =>
      rw [hCheck] at hBench
      cases hBench
  | ok layout =>
      rw [hCheck] at hBench
      cases hBench
      refine ⟨?_, layout, rfl, rfl⟩
      unfold Machine.check at hCheck
      split at hCheck
      · cases hCheck
      · omega

/- Nothing is wrong before the first node. -/
theorem Lowering.sound_start
    (p : Plan ν)
    (layout : WordLayout)
    (hSize : 0 < m.arraySize) :
    (Lowering.start (.start m layout) : Lowering ν).Sound p where
  size_pos := hSize
  fresh := by
    intro t tensor hTensor
    simp [start, Workbench.start, TensorTable.get?, TensorTable.empty]
      at hTensor
  laid := TensorTable.laid_empty
  program := WellFormed.nil
  values := by
    intro n v hValue
    cases hValue
  loads := by
    intro n v n' v' hValue
    cases hValue
  stored := by
    intro t tensor hTensor
    simp [start, Workbench.start, TensorTable.get?, TensorTable.empty]
      at hTensor

/- The nodes of a network are lowered from a workbench to a state. -/
structure Lowered
    (net : Network ν)
    (outputs : List String)
    (nodes : List ν)
    (bench : Workbench)
    (roots : List ν)
    (s : Lowering ν) : Prop where
  requested : net.roots outputs = .ok roots
  lowersAll :
    (Lowering.start bench).LowersAll
      { network := net, nodes, outputs := roots } nodes s
  sound : s.Sound { network := net, nodes, outputs := roots }
  lowering :
    (nodes.forM (Lower.node { network := net, nodes, outputs := roots }))
      (Lowering.start bench) = .ok () s

/- Lowering fails for a good reason or ends in a sound state. -/
theorem lowerNodes_cases
    (net : Network ν)
    (outputs : List String)
    (nodes : List ν)
    (layout : WordLayout)
    (hSize : 0 < m.arraySize) :
    (∃ e, lowerNodes net outputs nodes (.start m layout) = .error e ∧
      e.Admissible m) ∨
    ∃ roots s,
      Lowered net outputs nodes (.start m layout) roots s ∧
      lowerNodes net outputs nodes (.start m layout) =
        .ok (s.program, s.bench) := by
  unfold lowerNodes Plan.ofNodes
  cases hRoots : net.roots outputs with
  | error e => exact .inl ⟨_, rfl, .graph e⟩
  | ok roots =>
      have hRun := Lower.forM_node_ensures (m := m)
        (Lowering.sound_start
          { network := net, nodes, outputs := roots } layout hSize)
        (fun n hMem => hMem)
      unfold Ensures at hRun
      simp only
      cases hResult : (nodes.forM (Lower.node
          { network := net, nodes, outputs := roots }))
        (Lowering.start (.start m layout)) with
      | error e s' =>
          rw [hResult] at hRun
          exact .inl ⟨e, rfl, hRun⟩
      | ok u s =>
          rw [hResult] at hRun
          exact .inr ⟨roots, s, ⟨hRoots, hRun.1, hRun.2, hResult⟩, rfl⟩

/- Lowering that succeeds ends in a sound state. -/
theorem lowered_of_lowerNodes
    {net : Network ν}
    {outputs : List String}
    {nodes : List ν}
    {layout : WordLayout}
    {program : List Operation}
    {bench : Workbench}
    (hSize : 0 < m.arraySize)
    (hLower :
      lowerNodes net outputs nodes (.start m layout) =
        .ok (program, bench)) :
    ∃ roots s,
      Lowered net outputs nodes (.start m layout) roots s ∧
        program = s.program ∧ bench = s.bench := by
  rcases lowerNodes_cases net outputs nodes layout hSize with
    ⟨e, hError, -⟩ | ⟨roots, s, hLowered, hOk⟩
  · cases hError.symm.trans hLower
  · cases hOk.symm.trans hLower
    exact ⟨roots, s, hLowered, rfl, rfl⟩

end Systolic
