import Systolic.Output.Compiled
import Systolic.Proofs.Machine.Contents
import Systolic.Proofs.Program.Emission
import Systolic.Proofs.Program.Semantics
import Systolic.Proofs.Schedule.Legal

/-
  This file defines the replay of committed operations over the
  memories of a machine. An operation reads the regions that its
  operands are bound to at its position, or a place in DRAM, and
  overwrites the region of its result, or a place in DRAM. What
  the array computes is left open.

  Key definitions include:
    * `Kernel`
    * `Atlas`
    * `Atlas.step`
    * `Atlas.replay`
    * `Compiled.replay`

  Key theorems include:
    * `Atlas.replay_mono`
-/

namespace Systolic

variable {α : Type}

------------------------------------------------------------
-- Kernels
------------------------------------------------------------

/-
  What the array computes: each vector of a result, from all
  vectors of its operands. It may depend on the tensor of the
  result, and so on its shape.
-/
structure Kernel (α : Type) where
  product : TensorId → List α → List α → Option (List α) → Nat → α
  sum : TensorId → List α → List α → Nat → α
  activate : Activation → TensorId → List α → Nat → α

/- The first vectors of a result. -/
def vectors
    (n : Nat)
    (f : Nat → α) : List α :=
  (List.range n).map f

@[simp] theorem length_vectors
    (n : Nat)
    (f : Nat → α) :
    (vectors n f).length = n := by
  simp [vectors]

/- The number of vectors of a tensor. -/
def TensorTable.depth
    (table : TensorTable)
    (t : TensorId) : Nat :=
  match table.get? t with
  | some tensor => tensor.layout.depth
  | none => 0

/- The same functions on tensors of given depths. -/
def Kernel.semantics
    (K : Kernel α)
    (depth : TensorId → Nat) : Semantics (List α) where
  product := fun t x w bias => vectors (depth t) (K.product t x w bias)
  sum := fun t x y => vectors (depth t) (K.sum t x y)
  activate := fun activation t x =>
    vectors (depth t) (K.activate activation t x)

------------------------------------------------------------
-- Places of Tensors
------------------------------------------------------------

/- A binding holds an operand of the operation at a position. -/
def Binding.ServesAt
    (b : Binding)
    (position : Nat) : Prop :=
  b.allocatedAt < position ∧ ∀ stop ∈ b.releasedAt, position ≤ stop

instance
    (b : Binding)
    (position : Nat) :
    Decidable (b.ServesAt position) := by
  unfold Binding.ServesAt
  infer_instance

/- All bindings of a schedule, and its tensors. -/
structure Atlas where
  bindings : List Binding
  tensors : TensorTable

namespace Atlas

/- Where an operand of the operation at a position is. -/
def operand?
    (A : Atlas)
    (position : Nat)
    (t : TensorId) : Option Span :=
  (A.bindings.find? (fun b => b.tensor = t ∧ b.ServesAt position)).map
    Binding.span

/- Where the result of the operation at a position goes. -/
def result?
    (A : Atlas)
    (position : Nat)
    (t : TensorId) : Option Span :=
  (A.bindings.find? (fun b => b.tensor = t ∧ b.allocatedAt = position)).map
    Binding.span

/- One of the places of a tensor in DRAM. -/
def dram?
    (A : Atlas)
    (place : Tensor → Option DramLocation)
    (t : TensorId) : Option Span :=
  (A.tensors.get? t).bind (fun tensor => (place tensor).map tensor.span)

end Atlas

/- Where the tensors of a compiled network are. -/
def Compiled.atlas (c : Compiled) : Atlas :=
  { bindings := c.bindings, tensors := c.tensors }

/- Where the tensors of a view are. -/
def View.atlas (v : View) : Atlas :=
  { bindings := v.history, tensors := v.tensors }

------------------------------------------------------------
-- Replay
------------------------------------------------------------

/- The memories after one span was copied to another. -/
def Contents.copy?
    (m : Contents α)
    (source target : Option Span) : Option (Contents α) := do
  let p ← source
  let q ← target
  return m.write q (m.read p)

namespace Atlas

/-
  The memories after the operation at a position. A rectified
  result replaces its operand in the accumulator memory, too.
-/
def step
    (A : Atlas)
    (K : Kernel α)
    (position : Nat)
    (m : Contents α) : Operation → Option (Contents α)
| .load t => m.copy? (A.dram? (·.home) t) (A.result? position t)
| .reload t => m.copy? (A.dram? (·.dramCopy) t) (A.result? position t)
| .store t => m.copy? (A.operand? position t) (A.dram? (·.exported) t)
| .spill t => m.copy? (A.operand? position t) (A.dram? (·.spilled) t)
| .matMul input weights bias output => do
    let x ← A.operand? position input
    let w ← A.operand? position weights
    let b ← bias.mapM (A.operand? position)
    let place ← A.result? position output
    return m.write place (vectors place.length
      (K.product output (m.read x) (m.read w) (b.map m.read)))
| .accumulate input output false =>
    m.copy? (A.operand? position input) (A.result? position output)
| .accumulate input output true => do
    let x ← A.operand? position input
    let place ← A.operand? position output
    return m.write place (vectors place.length
      (K.sum output (m.read place) (m.read x)))
| .activate input output activation => do
    let x ← A.operand? position input
    let place ← A.result? position output
    let ys := vectors place.length
      (K.activate activation output (m.read x))
    let left := match activation with
      | .identity => m
      | .relu => m.write x ys
    return left.write place ys

/- The memories after operations from a position on. -/
def replayFrom
    (A : Atlas)
    (K : Kernel α) :
    Nat → List Operation → Contents α → Option (Contents α)
| _, [], m => some m
| position, op :: ops, m =>
    (A.step K position m op).bind (A.replayFrom K (position + 1) ops)

/- The memories after all operations of a schedule. -/
def replay
    (A : Atlas)
    (K : Kernel α)
    (ops : List Operation)
    (m : Contents α) : Option (Contents α) :=
  A.replayFrom K 0 ops m

theorem replayFrom_append
    (A : Atlas)
    (K : Kernel α)
    (position : Nat)
    (ops rest : List Operation)
    (m : Contents α) :
    A.replayFrom K position (ops ++ rest) m =
      (A.replayFrom K position ops m).bind
        (A.replayFrom K (position + ops.length) rest) := by
  induction ops generalizing position m with
  | nil => rfl
  | cons op ops ih =>
      simp only [List.cons_append, replayFrom, Option.bind_assoc,
        List.length_cons]
      congr 1
      funext m'
      rw [ih]
      congr 2
      omega

/- The last operation is replayed last. -/
theorem replay_snoc
    (A : Atlas)
    (K : Kernel α)
    (ops : List Operation)
    (op : Operation)
    (m : Contents α) :
    A.replay K (ops ++ [op]) m =
      (A.replay K ops m).bind
        (fun m' => A.step K ops.length m' op) := by
  unfold replay
  rw [replayFrom_append, Nat.zero_add]
  congr 1
  funext m'
  simp only [replayFrom]
  exact Option.bind_fun_some _

end Atlas

/- The memories after the schedule of a compiled network. -/
def Compiled.replay
    (c : Compiled)
    (K : Kernel α)
    (m : Contents α) : Option (Contents α) :=
  c.atlas.replay K (c.schedule.ops.map (·.operation)) m

/- The values that the inputs and constants have in DRAM. -/
def Compiled.homes
    (c : Compiled)
    (m : Contents α)
    (t : TensorId) : List α :=
  match c.atlas.dram? (·.home) t with
  | some place => m.read place
  | none => []

------------------------------------------------------------
-- Larger Atlases
------------------------------------------------------------

namespace Atlas

/- All that an atlas shows before a position, another one shows. -/
structure Agrees
    (position : Nat)
    (A A' : Atlas) : Prop where
  operand :
    ∀ p < position, ∀ t place,
      A.operand? p t = some place → A'.operand? p t = some place
  result :
    ∀ p < position, ∀ t place,
      A.result? p t = some place → A'.result? p t = some place
  tensors :
    ∀ t tensor, A.tensors.get? t = some tensor →
      ∃ grown, A'.tensors.get? t = some grown ∧ tensor.Grows grown ∧
        ∀ l ∈ tensor.dramCopy, l ∈ grown.dramCopy

section Agreement

variable {A A' : Atlas} {K : Kernel α} {m m' : Contents α}
variable {position p : Nat} {t : TensorId} {place : Span}

section

variable (hAgrees : A.Agrees position A')
include hAgrees

/- A place in DRAM that stays while tensors grow is shown. -/
theorem Agrees.dram?
    {slot : Tensor → Option DramLocation}
    (hSlot :
      ∀ tensor grown : Tensor, tensor.Grows grown →
        (∀ l ∈ tensor.dramCopy, l ∈ grown.dramCopy) →
          ∀ l ∈ slot tensor, l ∈ slot grown)
    (hPlace : A.dram? slot t = some place) :
    A'.dram? slot t = some place := by
  rcases Option.bind_eq_some_iff.mp hPlace with ⟨tensor, hGet, hAt⟩
  rcases Option.map_eq_some_iff.mp hAt with ⟨l, hL, rfl⟩
  rcases hAgrees.tensors t tensor hGet with ⟨grown, hGrown, hGrows, hCopy⟩
  have hStays := hSlot tensor grown hGrows hCopy l hL
  simp only [Atlas.dram?, hGrown, Option.bind_some, Tensor.span,
    hGrows.layout_eq, Option.mem_def.mp hStays, Option.map_some]

theorem Agrees.home
    (hPlace : A.dram? (·.home) t = some place) :
    A'.dram? (·.home) t = some place := by
  refine hAgrees.dram? ?_ hPlace
  intro tensor grown hGrows _ l hL
  rw [hGrows.home_eq]
  exact hL

theorem Agrees.copy
    (hPlace : A.dram? (·.dramCopy) t = some place) :
    A'.dram? (·.dramCopy) t = some place :=
  hAgrees.dram? (fun _ _ _ hCopy => hCopy) hPlace

theorem Agrees.exported
    (hPlace : A.dram? (·.exported) t = some place) :
    A'.dram? (·.exported) t = some place :=
  hAgrees.dram? (fun _ _ hGrows _ => hGrows.exported) hPlace

theorem Agrees.spilled
    (hPlace : A.dram? (·.spilled) t = some place) :
    A'.dram? (·.spilled) t = some place :=
  hAgrees.dram? (fun _ _ hGrows _ => hGrows.spilled) hPlace

end

theorem copy?_mono
    {source source' target target' : Option Span}
    (hSource : ∀ p, source = some p → source' = some p)
    (hTarget : ∀ q, target = some q → target' = some q)
    (hCopy : m.copy? source target = some m') :
    m.copy? source' target' = some m' := by
  rcases Option.bind_eq_some_iff.mp hCopy with ⟨p, hP, hRest⟩
  rcases Option.bind_eq_some_iff.mp hRest with ⟨q, hQ, hWrite⟩
  rw [hSource p hP, hTarget q hQ]
  exact hWrite

/- An operation does the same in a larger atlas. -/
theorem step_mono
    {op : Operation}
    (hAgrees : A.Agrees position A')
    (hBefore : p < position)
    (hStep : A.step K p m op = some m') :
    A'.step K p m op = some m' := by
  have hOperand := hAgrees.operand p hBefore
  have hResult := hAgrees.result p hBefore
  cases op with
  | load t =>
      exact copy?_mono (fun _ => hAgrees.home) (hResult t) hStep
  | reload t =>
      exact copy?_mono (fun _ => hAgrees.copy) (hResult t) hStep
  | store t =>
      exact copy?_mono (hOperand t) (fun _ => hAgrees.exported) hStep
  | spill t =>
      exact copy?_mono (hOperand t) (fun _ => hAgrees.spilled) hStep
  | matMul input weights bias output =>
      rcases Option.bind_eq_some_iff.mp hStep with ⟨x, hX, hStep⟩
      rcases Option.bind_eq_some_iff.mp hStep with ⟨w, hW, hStep⟩
      rcases Option.bind_eq_some_iff.mp hStep with ⟨b, hB, hStep⟩
      rcases Option.bind_eq_some_iff.mp hStep with ⟨place, hPlace, hStep⟩
      have hBias : bias.mapM (A'.operand? p) = some b := by
        cases bias with
        | none => exact hB
        | some u =>
            rw [Option.mapM_some] at hB ⊢
            rcases Option.map_eq_some_iff.mp hB with ⟨q, hQ, rfl⟩
            exact Option.map_eq_some_iff.mpr ⟨q, hOperand u q hQ, rfl⟩
      simp only [step, hOperand input x hX, hOperand weights w hW, hBias,
        hResult output place hPlace]
      exact hStep
  | accumulate input output add =>
      cases add with
      | false =>
          exact copy?_mono (hOperand input) (hResult output) hStep
      | true =>
          rcases Option.bind_eq_some_iff.mp hStep with ⟨x, hX, hStep⟩
          rcases Option.bind_eq_some_iff.mp hStep with
            ⟨place, hPlace, hStep⟩
          simp only [step, hOperand input x hX,
            hOperand output place hPlace]
          exact hStep
  | activate input output activation =>
      rcases Option.bind_eq_some_iff.mp hStep with ⟨x, hX, hStep⟩
      rcases Option.bind_eq_some_iff.mp hStep with ⟨place, hPlace, hStep⟩
      simp only [step, hOperand input x hX, hResult output place hPlace]
      exact hStep

/- A replay is the same in a larger atlas. -/
theorem replay_mono
    {ops : List Operation}
    (hAgrees : A.Agrees ops.length A')
    (hReplay : A.replay K ops m = some m') :
    A'.replay K ops m = some m' := by
  have hFrom :
      ∀ rest before, ops = before ++ rest → ∀ m : Contents α,
        A.replayFrom K before.length rest m = some m' →
          A'.replayFrom K before.length rest m = some m' := by
    intro rest
    induction rest with
    | nil => exact fun _ _ _ hDone => hDone
    | cons op rest ih =>
        intro before hSplit m hRun
        rcases Option.bind_eq_some_iff.mp hRun with ⟨m₁, hStep, hRest⟩
        have hBefore : before.length < ops.length := by
          rw [hSplit]
          simp
        have hNext := ih (before ++ [op]) (by simp [hSplit]) m₁
        rw [List.length_append, List.length_singleton] at hNext
        exact Option.bind_eq_some_iff.mpr
          ⟨m₁, step_mono hAgrees hBefore hStep, hNext hRest⟩
  exact hFrom ops [] rfl m hReplay

end Agreement

------------------------------------------------------------
-- Bindings and Positions
------------------------------------------------------------

section Bindings

variable {bs extra : List Binding} {tensors tensors' : TensorTable}
variable {position time : Nat} {spilled : Bool}

/- Later bindings serve no operation before them. -/
theorem operand?_append
    (hLater : ∀ b ∈ extra, position ≤ b.allocatedAt)
    (t : TensorId) :
    operand? { bindings := bs ++ extra, tensors } position t =
      operand? { bindings := bs, tensors := tensors' } position t := by
  have hNone :
      extra.find? (fun b => b.tensor = t ∧ b.ServesAt position) = none := by
    rw [List.find?_eq_none]
    intro b hB hServes
    have hBoth := of_decide_eq_true hServes
    exact Nat.not_lt_of_le (hLater b hB) hBoth.2.1
  unfold operand?
  rw [List.find?_append, hNone, Option.or_none]

theorem result?_append
    (hOther : ∀ b ∈ extra, b.allocatedAt ≠ position)
    (t : TensorId) :
    result? { bindings := bs ++ extra, tensors } position t =
      result? { bindings := bs, tensors := tensors' } position t := by
  have hNone :
      extra.find? (fun b => b.tensor = t ∧ b.allocatedAt = position) =
        none := by
    rw [List.find?_eq_none]
    intro b hB hPlaced
    exact hOther b hB (of_decide_eq_true hPlaced).2
  unfold result?
  rw [List.find?_append, hNone, Option.or_none]

/- A test that does not ask for the end of a binding. -/
theorem find?_close
    {P : Binding → Prop}
    [DecidablePred P]
    (hTest :
      ∀ b, b.releasedAt = none →
        (P { b with releasedAt := some time, spilled } ↔ P b))
    (u : TensorId) :
    ((close bs u time spilled).find? (fun b => P b)).map Binding.span =
      (bs.find? (fun b => P b)).map Binding.span := by
  unfold close
  rw [List.find?_map, Option.map_map]
  have hSame :
      ((fun b : Binding => decide (P b)) ∘
        fun b : Binding =>
          if b.tensor = u ∧ b.releasedAt = none then
            { b with releasedAt := some time, spilled }
          else b) =
        fun b => decide (P b) := by
    funext b
    simp only [Function.comp_apply, decide_eq_decide]
    split
    case isTrue hOpen => exact hTest b hOpen.2
    case isFalse => rfl
  rw [hSame]
  congr 1
  funext b
  simp only [Function.comp_apply]
  split <;> rfl

/- The end of a binding changes nothing up to that position. -/
theorem operand?_close
    (hTime : position ≤ time)
    (u t : TensorId) :
    operand? { bindings := close bs u time spilled, tensors }
        position t =
      operand? { bindings := bs, tensors := tensors' } position t :=
  find?_close
    (fun b hOpen => by simp [Binding.ServesAt, hOpen, hTime]) u

theorem result?_close
    (u t : TensorId) :
    result? { bindings := close bs u time spilled, tensors } position t =
      result? { bindings := bs, tensors := tensors' } position t :=
  find?_close (fun _ _ => Iff.rfl) u

end Bindings

end Atlas

------------------------------------------------------------
-- Views
------------------------------------------------------------

namespace View

variable {v v' : View} {b : Binding} {t : TensorId}

/- Other bindings of a tensor ended before its present one began. -/
theorem Settled.ended_of_ne
    {c : Binding}
    (hSettled : v.Settled)
    (hMem : c ∈ v.history)
    (hPresent : v.Present b)
    (hSame : c.tensor = b.tensor)
    (hNe : c ≠ b) :
    ∃ stop ∈ c.releasedAt, stop ≤ b.allocatedAt := by
  rcases hPresent with ⟨hIn, hOpen⟩
  have hOrder := List.pairwise_iff_getElem.mp hSettled.succession
  rcases List.mem_iff_getElem.mp hMem with ⟨i, hI, rfl⟩
  rcases List.mem_iff_getElem.mp hIn with ⟨j, hJ, rfl⟩
  rcases Nat.lt_trichotomy i j with hLt | hEq | hGt
  · exact hOrder i j hI hJ hLt (.inl hSame)
  · subst hEq
    exact absurd rfl hNe
  · rcases hOrder j i hJ hI hGt (.inl hSame.symm) with ⟨stop, hStop, -⟩
    rw [hOpen] at hStop
    cases hStop

/- A tensor on the chip can be read by the next operation. -/
theorem operand?_of_present
    (hSettled : v.Settled)
    (hPresent : v.Present b) :
    v.atlas.operand? v.position b.tensor = some b.span := by
  have hStarted := hSettled.started b hPresent.1
  have hServes : b.ServesAt v.position := by
    refine ⟨hStarted, ?_⟩
    intro stop hStop
    rw [hPresent.2] at hStop
    cases hStop
  have hSome :
      (v.history.find?
        (fun c => c.tensor = b.tensor ∧ c.ServesAt v.position)).isSome := by
    rw [List.find?_isSome]
    exact ⟨b, hPresent.1, decide_eq_true ⟨rfl, hServes⟩⟩
  rcases Option.isSome_iff_exists.mp hSome with ⟨c, hFind⟩
  have hMem := List.mem_of_find?_eq_some hFind
  have hFound : c.tensor = b.tensor ∧ c.ServesAt v.position := by
    simpa using List.find?_some hFind
  have hSame : c = b := by
    by_contra hNe
    rcases hSettled.ended_of_ne hMem hPresent hFound.1 hNe with
      ⟨stop, hStop, hLe⟩
    have hUntil := hFound.2.2 stop hStop
    omega
  unfold atlas Atlas.operand?
  rw [hFind, hSame, Option.map_some]

/- A new binding takes the result of the next operation. -/
theorem result?_of_places
    {tensors : TensorTable}
    (hSettled : v.Settled)
    (hPlaces : v.Places t b) :
    Atlas.result? { bindings := v.history ++ [b], tensors }
      v.position t = some b.span := by
  have hNone :
      v.history.find?
        (fun c => c.tensor = t ∧ c.allocatedAt = v.position) = none := by
    rw [List.find?_eq_none]
    intro c hC hPlaced
    have hStarted := hSettled.started c hC
    have hNow := (of_decide_eq_true hPlaced).2
    omega
  have hLast :
      [b].find? (fun c => c.tensor = t ∧ c.allocatedAt = v.position) =
        some b := by
    rw [List.find?_cons_of_pos]
    exact decide_eq_true ⟨hPlaces.tensor_eq, hPlaces.started⟩
  unfold Atlas.result?
  rw [List.find?_append, hNone, hLast]
  rfl

/- The end of a binding hides nothing from the operations before. -/
theorem agrees_close
    {tensors : TensorTable}
    {time : Nat}
    {spilled : Bool}
    (hTensors :
      ∀ u tensor, v.tensors.get? u = some tensor →
        ∃ grown, tensors.get? u = some grown ∧ tensor.Grows grown ∧
          ∀ l ∈ tensor.dramCopy, l ∈ grown.dramCopy)
    (hTime : v.position - 1 ≤ time) :
    v.atlas.Agrees v.position
      { bindings := close v.history t time spilled, tensors } where
  operand := by
    intro p hBefore u place hPlace
    rw [Atlas.operand?_close (by omega)]
    exact hPlace
  result := by
    intro p hBefore u place hPlace
    rw [Atlas.result?_close]
    exact hPlace
  tensors := hTensors

/- New bindings change nothing for the operations before. -/
theorem agrees_append
    {bs : List Binding}
    (hLater : ∀ b ∈ bs, b.allocatedAt = v.position) :
    v.atlas.Agrees v.position
      { bindings := v.history ++ bs, tensors := v.tensors } where
  operand := by
    intro p hBefore u place hPlace
    rw [Atlas.operand?_append]
    · exact hPlace
    · intro b hB
      have hNow := hLater b hB
      omega
  result := by
    intro p hBefore u place hPlace
    rw [Atlas.result?_append]
    · exact hPlace
    · intro b hB
      have hNow := hLater b hB
      omega
  tensors := fun _ tensor hGet =>
    ⟨tensor, hGet, .refl tensor, fun _ hL => hL⟩

/- Every step shows all that was shown before it. -/
theorem Step.agrees
    (hStep : v.Step v') :
    v.atlas.Agrees v.position v'.atlas := by
  have hSame :
      ∀ u tensor, v.tensors.get? u = some tensor →
        ∃ grown, v.tensors.get? u = some grown ∧ tensor.Grows grown ∧
          ∀ l ∈ tensor.dramCopy, l ∈ grown.dramCopy :=
    fun u tensor hGet => ⟨tensor, hGet, .refl tensor, fun l hL => hL⟩
  cases hStep with
  | leave hLeaves =>
      cases hLeaves with
      | copied _ _ _ _ _ => exact agrees_close hSame (Nat.sub_le _ _)
      | @stored b tensor _ _ _ hEntry hCopy _ =>
          refine agrees_close ?_ (Nat.sub_le _ _)
          intro u old hOld
          rcases extends_spilled hEntry hCopy _ u old hOld with
            ⟨grown, hGrown, hGrows⟩
          refine ⟨grown, hGrown, hGrows, ?_⟩
          intro l hL
          rw [TensorTable.get?_modify] at hGrown
          split at hGrown
          case isTrue hThis =>
            -- The tensor that is stored had no copy.
            subst hThis
            cases hEntry.symm.trans hOld
            rw [hCopy] at hL
            cases hL
          case isFalse =>
            cases hOld.symm.trans hGrown
            exact hL
  | reload hPlaces _ _ _ _ _ =>
      apply agrees_append
      intro b hB
      rw [List.mem_singleton.mp hB]
      exact hPlaces.started
  | commit hCommit =>
      apply agrees_append
      intro b hB
      rcases places_cases hCommit.writes with ⟨-, rfl⟩ | ⟨t, c, -, rfl, hPlaces⟩
      · cases hB
      · rw [List.mem_singleton.mp hB]
        exact hPlaces.started
  | drop _ _ => exact agrees_close hSame (Nat.le_refl _)

end View

end Systolic
