import Systolic.Proofs.Schedule.Reorder
import Systolic.Proofs.Schedule.Replay

/-
  This file proves that a schedule keeps its memories right: in a
  replay of what is committed, the region of a tensor on the chip
  and its copies in DRAM hold the value that the tensor has in an
  environment without memories.

  Key definitions include:
    * `View.Stocked`
    * `View.Kept`
    * `View.Mirrors`

  Key theorems include:
    * `View.Mirrors.place`
    * `View.Mirrors.commit`
    * `View.Mirrors.step`
    * `View.Steps.replays`
-/

namespace Systolic

variable {α : Type}

------------------------------------------------------------
-- Places that Lie Apart
------------------------------------------------------------

/- The chip and DRAM are different memories. -/
theorem Binding.span_apart
    (b : Binding)
    (tensor : Tensor)
    (l : DramLocation) :
    b.span.Apart (tensor.span l) := by
  apply Span.Apart.of_store_ne
  cases hKind : b.kind <;> cases hBank : l.bank <;>
    simp [Binding.span, Tensor.span, hKind, hBank, MemoryKind.store,
      DramBank.store]

theorem Contents.read_write_chip
    (m : Contents α)
    (b : Binding)
    (xs : List α)
    (tensor : Tensor)
    (l : DramLocation) :
    (m.write b.span xs).read (tensor.span l) = m.read (tensor.span l) :=
  m.read_write_of_apart (b.span_apart tensor l) xs

theorem Contents.read_write_dram
    (m : Contents α)
    (b : Binding)
    (xs : List α)
    (tensor : Tensor)
    (l : DramLocation) :
    (m.write (tensor.span l) xs).read b.span = m.read b.span := by
  apply m.read_write_of_apart
  intro hStore
  exact (b.span_apart tensor l hStore.symm).symm

/- Regions of one memory that do not overlap lie apart. -/
theorem Binding.span_apart_of_not_overlaps
    {b c : Binding}
    (hApart : c.kind = b.kind → ¬ c.region.Overlaps b.region) :
    b.span.Apart c.span := by
  intro hStore
  have hKind : c.kind = b.kind := by
    cases hB : b.kind <;> cases hC : c.kind <;>
      simp_all [Binding.span, MemoryKind.store]
  have hNot := hApart hKind
  simp only [Region.Overlaps, Region.stop, Binding.region] at hNot
  simp only [Binding.span]
  omega

/- A place in DRAM is the span of a location. -/
theorem Atlas.dram?_eq_some
    {A : Atlas}
    {slot : Tensor → Option DramLocation}
    {t : TensorId}
    {place : Span} :
    A.dram? slot t = some place ↔
      ∃ tensor l, A.tensors.get? t = some tensor ∧
        slot tensor = some l ∧ place = tensor.span l := by
  unfold Atlas.dram?
  rw [Option.bind_eq_some_iff]
  constructor
  · intro hPlace
    rcases hPlace with ⟨tensor, hGet, hMap⟩
    rcases Option.map_eq_some_iff.mp hMap with ⟨l, hL, rfl⟩
    exact ⟨tensor, l, hGet, hL, rfl⟩
  · intro hPlace
    rcases hPlace with ⟨tensor, l, hGet, hL, rfl⟩
    exact ⟨tensor, hGet, by rw [hL, Option.map_some]⟩

/- Different slots have places that lie apart. -/
theorem TensorTable.Laid.span_apart
    {table : TensorTable}
    {dram : Dram}
    {t u : TensorId}
    {tensor other : Tensor}
    {slot slot' : DramSlot}
    {l k : DramLocation}
    (hLaid : table.Laid dram)
    (hT : table.get? t = some tensor)
    (hU : table.get? u = some other)
    (hL : tensor.slot? slot = some l)
    (hK : other.slot? slot' = some k)
    (hNe : (t, slot) ≠ (u, slot')) :
    (tensor.span l).Apart (other.span k) := by
  intro hStore
  have hBank : l.bank = k.bank := by
    cases hB : l.bank <;> cases hC : k.bank <;>
      simp_all [Tensor.span, DramBank.store]
  exact hLaid.apart (TensorTable.extent?_eq_some hT hL)
    (TensorTable.extent?_eq_some hU hK) hNe hBank

namespace View

------------------------------------------------------------
-- Tensors of a Lowered Program
------------------------------------------------------------

/-
  The tensors of a view belong to a lowered program, and have
  given numbers of vectors.
-/
structure Stocked
    (n : Nat)
    (depth : TensorId → Nat)
    (program : List Operation)
    (v : View) : Prop where
  form : WellFormed n v.tensors program
  laid : v.tensors.Laid v.dram
  sizes :
    ∀ t tensor, v.tensors.get? t = some tensor →
      tensor.layout.depth = depth t

/- A tensor of the scratchpad that nothing writes any more. -/
def Kept
    (v : View)
    (t : TensorId) : Prop :=
  v.Defined t ∧ ∃ tensor, v.tensors.Holds t .scratchpad tensor

section Tensors

variable {n : Nat} {depth : TensorId → Nat} {program : List Operation}
variable {v v' : View} {t : TensorId} {b : Binding}

theorem Stocked.step
    (hStocked : v.Stocked n depth program)
    (hStep : v.Step v') :
    v'.Stocked n depth program := by
  cases hStep with
  | leave hLeaves =>
      cases hLeaves with
      | copied => exact ⟨hStocked.form, hStocked.laid, hStocked.sizes⟩
      | stored _ _ _ hEntry hCopy hFits =>
          constructor
          case form =>
            exact hStocked.form.extend (extends_spilled hEntry hCopy _)
          case laid =>
            exact hStocked.laid.reserve hEntry .spilled .dram0 hFits
          case sizes =>
            intro u tensor hGet
            simp only [TensorTable.get?_modify] at hGet
            split at hGet
            case isTrue =>
              rcases Option.map_eq_some_iff.mp hGet with ⟨old, hOld, rfl⟩
              rw [Tensor.layout_setSlot]
              exact hStocked.sizes u old hOld
            case isFalse => exact hStocked.sizes u tensor hGet
  | reload => exact ⟨hStocked.form, hStocked.laid, hStocked.sizes⟩
  | commit => exact ⟨hStocked.form, hStocked.laid, hStocked.sizes⟩
  | drop => exact ⟨hStocked.form, hStocked.laid, hStocked.sizes⟩

theorem Stocked.steps
    (hStocked : v.Stocked n depth program)
    (hSteps : v.Steps v') :
    v'.Stocked n depth program := by
  induction hSteps with
  | refl => exact hStocked
  | tail _ hStep ih => exact ih.step hStep

/- A binding has the vectors of its tensor. -/
theorem Stocked.size_eq
    (hStocked : v.Stocked n depth program)
    (hSuits : v.Suits b) :
    b.size = depth b.tensor := by
  rcases hSuits with ⟨tensor, hEntry, -, hSize⟩
  rw [hSize]
  exact hStocked.sizes b.tensor tensor hEntry

theorem Kept.mono
    (hKept : v.Kept t)
    (hPending : ∀ p ∈ v'.pending, p ∈ v.pending)
    (hTensors : v.tensors.Extends v'.tensors) :
    v'.Kept t := by
  rcases hKept with ⟨hDefined, tensor, hHolds⟩
  rcases hHolds.extend hTensors with ⟨grown, hGrown, -⟩
  exact ⟨fun p hP => hDefined p (hPending p hP), grown, hGrown⟩

/- No pending operation changes a tensor that is kept. -/
theorem Kept.target_ne
    {i : Nat}
    {op : Operation}
    (hKept : v.Kept t)
    (hTyped : op.Typed n v.tensors)
    (hMem : (i, op) ∈ v.pending) :
    op.target ≠ some t := by
  rcases hKept with ⟨hDefined, tensor, hHolds⟩
  intro hTarget
  exact hDefined (i, op) hMem (hTyped.writes_of_target hHolds hTarget)

/- What is in the scratchpad is kept. -/
theorem kept_of_present
    (hLegal : v.Legal program)
    (hPresent : v.Present b)
    (hKind : b.kind = .scratchpad) :
    v.Kept b.tensor := by
  rcases hLegal.suits b hPresent with ⟨tensor, hEntry, hSame, -⟩
  exact ⟨hLegal.defined b hPresent, tensor, hEntry, hSame.symm.trans hKind⟩

end Tensors

------------------------------------------------------------
-- Memories and Environments
------------------------------------------------------------

/-
  The regions on the chip hold the values of their tensors. In
  the accumulator memory this is said of tensors that are still
  read, as an activation may replace its operand.
-/
def ChipHolds
    (now : TensorId → List α)
    (v : View)
    (m : Contents α) : Prop :=
  ∀ b, v.Present b → (b.kind = .accumulator → ¬ v.Unread b.tensor) →
    m.read b.span = now b.tensor

/-
  The places in DRAM hold the values of their tensors: at home
  the first one, where a tensor waits and where it was stored for
  the host the last one.
-/
structure DramHolds
    (home now : TensorId → List α)
    (v : View)
    (m : Contents α) : Prop where
  homes :
    ∀ t tensor l, v.tensors.get? t = some tensor →
      tensor.home = some l → m.read (tensor.span l) = home t
  spilled :
    ∀ t tensor l, v.tensors.get? t = some tensor →
      tensor.spilled = some l →
        v.Kept t ∧ m.read (tensor.span l) = now t
  exported :
    ∀ t tensor l, v.tensors.get? t = some tensor →
      tensor.exported = some l → .store t ∈ v.done →
        v.Kept t ∧ m.read (tensor.span l) = now t

/- All memories hold the values of their tensors. -/
structure Mirrors
    (home now : TensorId → List α)
    (v : View)
    (m : Contents α) : Prop where
  chip : v.ChipHolds now m
  dram : v.DramHolds home now m

section Memories

variable {n : Nat} {depth : TensorId → Nat} {program : List Operation}
variable {home now now' : TensorId → List α}
variable {v v' : View} {m m' left : Contents α}
variable {t : TensorId} {b : Binding}

theorem not_unread_of_subset
    (hPending : ∀ p ∈ v'.pending, p ∈ v.pending)
    (hRead : ¬ v'.Unread t) :
    ¬ v.Unread t :=
  fun hUnread => hRead (fun p hP => hUnread p (hPending p hP))

/- Writes to DRAM and releases leave what is on the chip. -/
theorem ChipHolds.mono
    (hChip : v.ChipHolds now m)
    (hPresent : ∀ b, v'.Present b → v.Present b)
    (hPending : ∀ p ∈ v'.pending, p ∈ v.pending)
    (hReads : ∀ b : Binding, m'.read b.span = m.read b.span) :
    v'.ChipHolds now m' := by
  intro b hB hRead
  rw [hReads b]
  apply hChip b (hPresent b hB)
  intro hKind
  exact not_unread_of_subset hPending (hRead hKind)

/- Writes to the chip leave what is in DRAM. -/
theorem DramHolds.mono
    (hDram : v.DramHolds home now m)
    (hTensors : v'.tensors = v.tensors)
    (hPending : ∀ p ∈ v'.pending, p ∈ v.pending)
    (hDone : ∀ t, .store t ∈ v'.done → .store t ∈ v.done)
    (hNow : ∀ t, v.Kept t → now' t = now t)
    (hReads :
      ∀ (tensor : Tensor) l,
        m'.read (tensor.span l) = m.read (tensor.span l)) :
    v'.DramHolds home now' m' := by
  have hKept : ∀ t, v.Kept t → v'.Kept t := by
    intro t hT
    apply hT.mono hPending
    rw [hTensors]
    exact .refl _
  constructor
  case homes =>
    intro t tensor l hGet hHome
    rw [hTensors] at hGet
    rw [hReads]
    exact hDram.homes t tensor l hGet hHome
  case spilled =>
    intro t tensor l hGet hSpilled
    rw [hTensors] at hGet
    rcases hDram.spilled t tensor l hGet hSpilled with ⟨hT, hValue⟩
    rw [hReads, hNow t hT]
    exact ⟨hKept t hT, hValue⟩
  case exported =>
    intro t tensor l hGet hExported hStored
    rw [hTensors] at hGet
    rcases hDram.exported t tensor l hGet hExported
      (hDone t hStored) with ⟨hT, hValue⟩
    rw [hReads, hNow t hT]
    exact ⟨hKept t hT, hValue⟩

/- A tensor that was off the chip gets its value. -/
theorem ChipHolds.place
    (hChip : v.ChipHolds now m)
    (hPlaces : v.Places t b)
    (hHistory : v'.history = v.history ++ [b])
    (hPending : ∀ p ∈ v'.pending, p ∈ v.pending)
    (hNow : ∀ u, u ≠ t → now' u = now u)
    (hLeft :
      ∀ c, v.Present c → (c.kind = .accumulator → ¬ v'.Unread c.tensor) →
        left.read c.span = m.read c.span)
    (hLength : (now' t).length = b.size) :
    v'.ChipHolds now' (left.write b.span (now' t)) := by
  intro c hC hRead
  rcases (present_place hHistory hPlaces.opened).mp hC with hOld | rfl
  · have hOther : c.tensor ≠ t :=
      fun hSame => hPlaces.off ⟨c, hOld, hSame⟩
    have hApart : b.span.Apart c.span :=
      Binding.span_apart_of_not_overlaps (hPlaces.apart c hOld)
    rw [left.read_write_of_apart hApart, hLeft c hOld hRead,
      hNow c.tensor hOther]
    apply hChip c hOld
    intro hKind
    exact not_unread_of_subset hPending (hRead hKind)
  · rw [hPlaces.tensor_eq]
    exact left.read_write hLength

theorem Mirrors.place
    (hMirrors : v.Mirrors home now m)
    (hPlaces : v.Places t b)
    (hHistory : v'.history = v.history ++ [b])
    (hTensors : v'.tensors = v.tensors)
    (hPending : ∀ p ∈ v'.pending, p ∈ v.pending)
    (hDone : ∀ u, .store u ∈ v'.done → .store u ∈ v.done)
    (hNow : ∀ u, u ≠ t → now' u = now u)
    (hKept : v.Kept t → now' t = now t)
    (hLeft :
      ∀ c, v.Present c → (c.kind = .accumulator → ¬ v'.Unread c.tensor) →
        left.read c.span = m.read c.span)
    (hDram :
      ∀ (tensor : Tensor) l,
        left.read (tensor.span l) = m.read (tensor.span l))
    (hLength : (now' t).length = b.size) :
    v'.Mirrors home now' (left.write b.span (now' t)) := by
  constructor
  case chip =>
    exact hMirrors.chip.place hPlaces hHistory hPending hNow hLeft hLength
  case dram =>
    apply hMirrors.dram.mono hTensors hPending hDone
    · intro u hU
      by_cases hSame : u = t
      · subst hSame
        exact hKept hU
      · exact hNow u hSame
    · intro tensor l
      rw [left.read_write_chip, hDram]

/- A tensor on the chip changes in place. -/
theorem Mirrors.overwrite
    (hSettled : v.Settled)
    (hMirrors : v.Mirrors home now m)
    (hPresent : v.Present b)
    (hHistory : v'.history = v.history)
    (hTensors : v'.tensors = v.tensors)
    (hPending : ∀ p ∈ v'.pending, p ∈ v.pending)
    (hDone : ∀ u, .store u ∈ v'.done → .store u ∈ v.done)
    (hNow : ∀ u, u ≠ b.tensor → now' u = now u)
    (hKept : ¬ v.Kept b.tensor)
    (hLength : (now' b.tensor).length = b.size) :
    v'.Mirrors home now' (m.write b.span (now' b.tensor)) := by
  constructor
  case chip =>
    intro c hC hRead
    have hOld : v.Present c := by
      unfold Present at hC ⊢
      rw [← hHistory]
      exact hC
    by_cases hSame : c.tensor = b.tensor
    · rw [hSettled.single c b hOld hPresent hSame]
      exact m.read_write hLength
    · have hApart : b.span.Apart c.span :=
        Binding.span_apart_of_not_overlaps
          (hSettled.apart c b hOld hPresent hSame)
      rw [m.read_write_of_apart hApart, hNow c.tensor hSame]
      apply hMirrors.chip c hOld
      intro hKind
      exact not_unread_of_subset hPending (hRead hKind)
  case dram =>
    apply hMirrors.dram.mono hTensors hPending hDone
    · intro u hU
      apply hNow u
      intro hSame
      exact hKept (hSame ▸ hU)
    · intro tensor l
      exact m.read_write_chip b _ tensor l

/- The value of a tensor is written to one of its places in DRAM. -/
theorem DramHolds.write
    {dram : Dram}
    {tensor : Tensor}
    {l : DramLocation}
    (hDram : v.DramHolds home now m)
    (slot : DramSlot)
    (hLaid : v'.tensors.Laid dram)
    (hEntries :
      ∀ u grown, v'.tensors.get? u = some grown →
        ∃ old, v.tensors.get? u = some old ∧
          grown.layout = old.layout ∧
          ∀ other, (u, other) ≠ (t, slot) →
            grown.slot? other = old.slot? other)
    (hExtends : v.tensors.Extends v'.tensors)
    (hPending : ∀ p ∈ v'.pending, p ∈ v.pending)
    (hDone :
      ∀ u, .store u ∈ v'.done →
        .store u ∈ v.done ∨ (u, .exported) = (t, slot))
    (hEntry : v'.tensors.get? t = some tensor)
    (hSlot : tensor.slot? slot = some l)
    (hHome : slot ≠ .home)
    (hKept : v.Kept t)
    (hLength : (now t).length = tensor.layout.depth) :
    v'.DramHolds home now (m.write (tensor.span l) (now t)) := by
  -- Every other place lies apart from this one, and is an old one.
  have hOther :
      ∀ u grown other k, v'.tensors.get? u = some grown →
        grown.slot? other = some k → (u, other) ≠ (t, slot) →
        ∃ old, v.tensors.get? u = some old ∧ old.slot? other = some k ∧
          (m.write (tensor.span l) (now t)).read (grown.span k) =
            m.read (old.span k) := by
    intro u grown other k hGet hK hNe
    rcases hEntries u grown hGet with ⟨old, hOld, hLayout, hSlots⟩
    have hApart := hLaid.span_apart hEntry hGet hSlot hK (Ne.symm hNe)
    refine ⟨old, hOld, ?_, ?_⟩
    · rw [← hSlots other hNe]
      exact hK
    · rw [m.read_write_of_apart hApart]
      simp only [Tensor.span, hLayout]
  have hThis :
      ∀ u grown other k, v'.tensors.get? u = some grown →
        grown.slot? other = some k → (u, other) = (t, slot) →
        v'.Kept u ∧
          (m.write (tensor.span l) (now t)).read (grown.span k) =
            now u := by
    intro u grown other k hGet hK hSame
    cases hSame
    cases hEntry.symm.trans hGet
    cases hSlot.symm.trans hK
    exact ⟨hKept.mono hPending hExtends, m.read_write hLength⟩
  constructor
  case homes =>
    intro u grown k hGet hK
    have hNe : (u, DramSlot.home) ≠ (t, slot) :=
      fun hSame => hHome (congrArg Prod.snd hSame).symm
    rcases hOther u grown .home k hGet hK hNe with ⟨old, hOld, hAt, hRead⟩
    rw [hRead]
    exact hDram.homes u old k hOld hAt
  case spilled =>
    intro u grown k hGet hK
    by_cases hSame : (u, DramSlot.spilled) = (t, slot)
    · exact hThis u grown .spilled k hGet hK hSame
    · rcases hOther u grown .spilled k hGet hK hSame with
        ⟨old, hOld, hAt, hRead⟩
      rcases hDram.spilled u old k hOld hAt with ⟨hU, hValue⟩
      rw [hRead]
      exact ⟨hU.mono hPending hExtends, hValue⟩
  case exported =>
    intro u grown k hGet hK hStored
    by_cases hSame : (u, DramSlot.exported) = (t, slot)
    · exact hThis u grown .exported k hGet hK hSame
    · rcases hOther u grown .exported k hGet hK hSame with
        ⟨old, hOld, hAt, hRead⟩
      rcases hDram.exported u old k hOld hAt
        ((hDone u hStored).resolve_right hSame) with ⟨hU, hValue⟩
      rw [hRead]
      exact ⟨hU.mono hPending hExtends, hValue⟩

end Memories

------------------------------------------------------------
-- Committed Operations
------------------------------------------------------------

section Commitment

variable {n : Nat} {depth : TensorId → Nat} {program : List Operation}
variable {home now : TensorId → List α} {K : Kernel α}
variable {v : View} {m left : Contents α}
variable {i : Nat} {op : Operation} {bs : List Binding}
variable {t : TensorId} {b : Binding}
variable {input output : TensorId}

/- An operand is on the chip, with its value. -/
theorem Mirrors.operand
    (hLegal : v.Legal program)
    (hMirrors : v.Mirrors home now m)
    (hCommit : v.CanCommit i op bs)
    (hRead : t ∈ op.reads) :
    ∃ c, v.Present c ∧ c.tensor = t ∧
      (v.committed i op bs).atlas.operand? v.position t = some c.span ∧
      m.read c.span = now t := by
  rcases hCommit.reads t hRead with ⟨c, hPresent, rfl⟩
  refine ⟨c, hPresent, rfl, ?_, ?_⟩
  · rw [← operand?_of_present hLegal.toSettled hPresent]
    apply Atlas.operand?_append
    intro b hB
    rcases places_cases hCommit.writes with
      ⟨-, rfl⟩ | ⟨u, d, -, rfl, hPlaces⟩
    · cases hB
    · rw [List.mem_singleton.mp hB, hPlaces.started]
  · apply hMirrors.chip c hPresent
    intro _ hUnread
    exact hUnread (i, op) hCommit.pending hRead

/- The result of an operation goes to its new region. -/
theorem Mirrors.result
    (S : Semantics (List α))
    (hTyped : op.Typed n v.tensors)
    (hMirrors : v.Mirrors home now m)
    (hCommit : v.CanCommit i op [b])
    (hResult : op.writes = some t)
    (hLeft :
      ∀ c, v.Present c →
        (c.kind = .accumulator →
          ¬ (v.committed i op [b]).Unread c.tensor) →
        left.read c.span = m.read c.span)
    (hDram :
      ∀ (tensor : Tensor) l,
        left.read (tensor.span l) = m.read (tensor.span l))
    (hLength : (S.step home now op t).length = b.size) :
    (v.committed i op [b]).Mirrors home (S.step home now op)
      (left.write b.span (S.step home now op t)) := by
  have hTarget := hTyped.target_of_writes hResult
  have hPlaces := hCommit.places hResult
  refine hMirrors.place hPlaces rfl rfl ?_ ?_ ?_ ?_ hLeft hDram hLength
  · exact fun p hP => List.mem_of_mem_eraseP hP
  · intro u hStored
    rcases List.mem_append.mp hStored with hOld | hNew
    · exact hOld
    · cases List.mem_singleton.mp hNew
      cases hResult
  · intro u hU
    apply S.step_of_target_ne home
    rw [hTarget]
    exact fun hSame => hU (Option.some.inj hSame).symm
  · intro hKept
    exact absurd hTarget (hKept.target_ne hTyped hCommit.pending)

/- The bias of a product is on the chip, with its value. -/
theorem Mirrors.bias
    {weights : TensorId}
    {bias : Option TensorId}
    (hLegal : v.Legal program)
    (hMirrors : v.Mirrors home now m)
    (hCommit : v.CanCommit i (.matMul input weights bias output) bs) :
    ∃ places,
      bias.mapM ((v.committed i (.matMul input weights bias output)
        bs).atlas.operand? v.position) = some places ∧
      places.map m.read = bias.map now := by
  cases bias with
  | none => exact ⟨none, rfl, rfl⟩
  | some u =>
      rcases hMirrors.operand hLegal hCommit (t := u)
          (by simp [Operation.reads, mem_distinct]) with
        ⟨c, -, -, hPlace, hValue⟩
      refine ⟨some c.span, ?_, ?_⟩
      · rw [Option.mapM_some, hPlace]
        rfl
      · rw [Option.map_some, Option.map_some, hValue]

/-
  An operation can be replayed, and what it does to the memories
  is what it does to the environment.
-/
def Advances
    (K : Kernel α)
    (depth : TensorId → Nat)
    (home now : TensorId → List α)
    (m : Contents α)
    (v : View)
    (i : Nat)
    (op : Operation)
    (bs : List Binding) : Prop :=
  ∃ m', (v.committed i op bs).atlas.step K v.position m op = some m' ∧
    (v.committed i op bs).Mirrors home
      ((K.semantics depth).step home now op) m'

theorem copy?_eq_some
    {source target : Option Span}
    {p q : Span}
    (hSource : source = some p)
    (hTarget : target = some q) :
    m.copy? source target = some (m.write q (m.read p)) := by
  rw [hSource, hTarget]
  rfl

/- The region of a result has the vectors of its tensor. -/
theorem Stocked.size_of_places
    (hStocked : v.Stocked n depth program)
    (hPlaces : v.Places t b) :
    b.size = depth t := by
  rw [hStocked.size_eq hPlaces.suits, hPlaces.tensor_eq]

section

variable (hLegal : v.Legal program)
include hLegal

section

variable (hStocked : v.Stocked n depth program)
include hStocked

section

variable (hMirrors : v.Mirrors home now m)
include hMirrors

theorem Mirrors.load
    (hTyped : (Operation.load t).Typed n v.tensors)
    (hCommit : v.CanCommit i (.load t) [b]) :
    v.Advances K depth home now m i (.load t) [b] := by
  have hPlaces := hCommit.places rfl
  have hResult :
      (v.committed i (.load t) [b]).atlas.result? v.position t =
        some b.span :=
    result?_of_places hLegal.toSettled hPlaces
  have hStep :
      (K.semantics depth).step home now (.load t) t = home t := by
    simp only [Semantics.step, Function.update_self]
  cases hTyped with
  | @load _ a hTensor hHome =>
      rcases Option.isSome_iff_exists.mp hHome with ⟨l, hL⟩
      have hSource :
          (v.committed i (.load t) [b]).atlas.dram? (·.home) t =
            some (a.span l) :=
        Atlas.dram?_eq_some.mpr ⟨a, l, hTensor.1, hL, rfl⟩
      have hValue : m.read (a.span l) = home t :=
        hMirrors.dram.homes t a l hTensor.1 hL
      refine ⟨_, copy?_eq_some hSource hResult, ?_⟩
      rw [hValue, ← hStep]
      refine hMirrors.result (n := n) (K.semantics depth)
        (.load hTensor hHome) hCommit rfl ?_ ?_ ?_
      · exact fun _ _ _ => rfl
      · exact fun _ _ => rfl
      · rw [hStep, ← hValue, Contents.length_read,
          hStocked.size_of_places hPlaces]
        exact hStocked.sizes t a hTensor.1

theorem Mirrors.product
    {weights : TensorId}
    {bias : Option TensorId}
    (hTyped :
      (Operation.matMul input weights bias output).Typed n v.tensors)
    (hCommit :
      v.CanCommit i (.matMul input weights bias output) [b]) :
    v.Advances K depth home now m i
      (.matMul input weights bias output) [b] := by
  have hPlaces := hCommit.places rfl
  have hSize := hStocked.size_of_places hPlaces
  have hResult :
      (v.committed i (.matMul input weights bias output)
        [b]).atlas.result? v.position output = some b.span :=
    result?_of_places hLegal.toSettled hPlaces
  rcases hMirrors.operand hLegal hCommit (t := input)
      (by simp [Operation.reads, mem_distinct]) with
    ⟨x, -, -, hX, hInput⟩
  rcases hMirrors.operand hLegal hCommit (t := weights)
      (by simp [Operation.reads, mem_distinct]) with
    ⟨w, -, -, hW, hWeights⟩
  rcases hMirrors.bias hLegal hCommit with ⟨places, hB, hBias⟩
  have hStep :
      (K.semantics depth).step home now
          (.matMul input weights bias output) output =
        vectors b.size (K.product output (m.read x.span)
          (m.read w.span) (places.map m.read)) := by
    simp only [Semantics.step, Function.update_self, Kernel.semantics,
      hInput, hWeights, hBias, hSize]
  refine ⟨m.write b.span ((K.semantics depth).step home now
    (.matMul input weights bias output) output), ?_, ?_⟩
  · simp only [Atlas.step, hX, hW, hB, hResult, hStep]
    rfl
  · refine hMirrors.result (K.semantics depth) hTyped hCommit rfl ?_ ?_ ?_
    · exact fun _ _ _ => rfl
    · exact fun _ _ => rfl
    · rw [hStep, length_vectors]

/- A copy is the first summand of a sum. -/
theorem Mirrors.copy
    (hTyped : (Operation.accumulate input output false).Typed n v.tensors)
    (hCommit : v.CanCommit i (.accumulate input output false) [b]) :
    v.Advances K depth home now m i (.accumulate input output false)
      [b] := by
  have hPlaces := hCommit.places rfl
  have hSize := hStocked.size_of_places hPlaces
  have hResult :
      (v.committed i (.accumulate input output false)
        [b]).atlas.result? v.position output = some b.span :=
    result?_of_places hLegal.toSettled hPlaces
  rcases hMirrors.operand hLegal hCommit (t := input)
      (by simp [Operation.reads]) with
    ⟨x, hPresent, hTensor, hX, hInput⟩
  have hStep :
      (K.semantics depth).step home now (.accumulate input output false)
        output = m.read x.span := by
    simp only [Semantics.step, Function.update_self, hInput]
  refine ⟨_, copy?_eq_some hX hResult, ?_⟩
  rw [← hStep]
  refine hMirrors.result (K.semantics depth) hTyped hCommit rfl ?_ ?_ ?_
  · exact fun _ _ _ => rfl
  · exact fun _ _ => rfl
  · cases hTyped with
    | @accumulate _ _ _ a c hIn hOut hLayout =>
        have hDepth := hStocked.size_eq (hLegal.suits x hPresent)
        rw [hStep, Contents.length_read]
        change x.size = b.size
        rw [hDepth, hTensor, hSize, ← hStocked.sizes input a hIn.1,
          ← hStocked.sizes output c hOut.1, hLayout]

/- A sum changes its tensor in place. -/
theorem Mirrors.accumulate
    (hTyped : (Operation.accumulate input output true).Typed n v.tensors)
    (hCommit : v.CanCommit i (.accumulate input output true) []) :
    v.Advances K depth home now m i (.accumulate input output true)
      [] := by
  rcases hMirrors.operand hLegal hCommit (t := input)
      (by simp [Operation.reads, mem_distinct]) with
    ⟨x, -, -, hX, hInput⟩
  rcases hMirrors.operand hLegal hCommit (t := output)
      (by simp [Operation.reads, mem_distinct]) with
    ⟨y, hPresent, rfl, hY, hOutput⟩
  have hSize := hStocked.size_eq (hLegal.suits y hPresent)
  have hStep :
      (K.semantics depth).step home now
          (.accumulate input y.tensor true) y.tensor =
        vectors y.size (K.sum y.tensor (m.read y.span)
          (m.read x.span)) := by
    simp only [Semantics.step, Function.update_self, Kernel.semantics,
      hInput, hOutput, hSize]
  refine ⟨m.write y.span ((K.semantics depth).step home now
    (.accumulate input y.tensor true) y.tensor), ?_, ?_⟩
  · simp only [Atlas.step, hX, hY, hStep]
    rfl
  · refine hMirrors.overwrite hLegal.toSettled hPresent
      (List.append_nil _) rfl ?_ ?_ ?_ ?_ ?_
    · exact fun p hP => List.mem_of_mem_eraseP hP
    · intro u hStored
      rcases List.mem_append.mp hStored with hOld | hNew
      · exact hOld
      · cases List.mem_singleton.mp hNew
    · intro u hU
      apply (K.semantics depth).step_of_target_ne home
      exact fun hSame => hU (Option.some.inj hSame).symm
    · intro hKept
      exact hKept.target_ne hTyped hCommit.pending rfl
    · rw [hStep, length_vectors]

end

/- An operand that was activated is not read any more. -/
theorem unread_of_activates
    (hCommit : v.CanCommit i op bs)
    (hActivates : op.activates = some t) :
    (v.committed i op bs).Unread t := by
  intro p hP hReads
  rcases (mem_eraseP_place hLegal.sorted).mp hP with ⟨hWaits, hNe⟩
  have hGet := hLegal.listed i op hCommit.pending
  have hGet' := hLegal.listed p.1 p.2 hWaits
  have hLe := hStocked.form.le_of_activates hGet hActivates hGet' hReads
  have hMem : t ∈ activated program :=
    List.mem_filterMap.mpr ⟨op, List.mem_of_getElem? hGet, hActivates⟩
  rcases hStocked.form.holds_activated hMem with ⟨tensor, hHolds⟩
  have hRuns := (hStocked.form p.1 p.2 hGet').typed.compute_of_reads
    hHolds hReads
  have hArray : op.resource = .compute := by
    cases op with
    | activate => rfl
    | _ => cases hActivates
  have hOldest := hCommit.oldest hArray p hWaits hRuns
  omega

theorem Mirrors.activate
    {activation : Activation}
    (hMirrors : v.Mirrors home now m)
    (hTyped :
      (Operation.activate input output activation).Typed n v.tensors)
    (hCommit :
      v.CanCommit i (.activate input output activation) [b]) :
    v.Advances K depth home now m i
      (.activate input output activation) [b] := by
  have hPlaces := hCommit.places rfl
  have hSize := hStocked.size_of_places hPlaces
  have hResult :
      (v.committed i (.activate input output activation)
        [b]).atlas.result? v.position output = some b.span :=
    result?_of_places hLegal.toSettled hPlaces
  rcases hMirrors.operand hLegal hCommit (t := input)
      (by simp [Operation.reads]) with
    ⟨x, hPresent, rfl, hX, hInput⟩
  have hStep :
      (K.semantics depth).step home now
          (.activate x.tensor output activation) output =
        vectors b.size (K.activate activation output (m.read x.span)) := by
    simp only [Semantics.step, Function.update_self, Kernel.semantics,
      hInput, hSize]
  have hUnread := unread_of_activates hLegal hStocked hCommit rfl
  have hKind : x.kind = .accumulator := by
    rcases hLegal.suits x hPresent with ⟨tensor, hEntry, hSame, -⟩
    cases hTyped with
    | activate hIn =>
        cases hEntry.symm.trans hIn.1
        exact hSame.trans hIn.2
  -- What is still read lies apart from the operand.
  have hLeft :
      ∀ c, v.Present c →
        (c.kind = .accumulator →
          ¬ (v.committed i (.activate x.tensor output activation)
            [b]).Unread c.tensor) →
        ∀ ys, (m.write x.span ys).read c.span = m.read c.span := by
    intro c hC hRead ys
    have hOther : c.tensor ≠ x.tensor := by
      intro hSame
      have hOne := hLegal.single c x hC hPresent hSame
      rw [hOne] at hRead
      exact hRead hKind hUnread
    apply m.read_write_of_apart
    exact Binding.span_apart_of_not_overlaps
      (hLegal.apart c x hC hPresent hOther)
  -- A rectifier works on its operand in place.
  have hRun :
      ∃ drained,
        (drained = m ∨ ∃ ys, drained = m.write x.span ys) ∧
        (v.committed i (.activate x.tensor output activation)
            [b]).atlas.step K v.position m
            (.activate x.tensor output activation) =
          some (drained.write b.span
            ((K.semantics depth).step home now
              (.activate x.tensor output activation) output)) := by
    cases activation with
    | identity =>
        refine ⟨m, .inl rfl, ?_⟩
        simp only [Atlas.step, hX, hResult, hStep]
        rfl
    | relu =>
        refine ⟨m.write x.span (vectors b.size
          (K.activate .relu output (m.read x.span))), .inr ⟨_, rfl⟩, ?_⟩
        simp only [Atlas.step, hX, hResult, hStep]
        rfl
  rcases hRun with ⟨drained, hDrained, hRun⟩
  refine ⟨_, hRun, ?_⟩
  refine hMirrors.result (K.semantics depth) hTyped hCommit rfl ?_ ?_ ?_
  · intro c hC hRead
    rcases hDrained with rfl | ⟨ys, rfl⟩
    · rfl
    · exact hLeft c hC hRead ys
  · intro tensor l
    rcases hDrained with rfl | ⟨ys, rfl⟩
    · rfl
    · exact m.read_write_chip x ys tensor l
  · rw [hStep, length_vectors]

/- A store leaves the value of its tensor for the host. -/
theorem Mirrors.export
    (hMirrors : v.Mirrors home now m)
    (hTyped : (Operation.store t).Typed n v.tensors)
    (hCommit : v.CanCommit i (.store t) []) :
    v.Advances K depth home now m i (.store t) [] := by
  rcases hMirrors.operand hLegal hCommit (t := t)
      (by simp [Operation.reads]) with
    ⟨x, hPresent, rfl, hX, hValue⟩
  cases hTyped with
  | @store _ a hTensor hExported =>
      rcases Option.isSome_iff_exists.mp hExported with ⟨l, hL⟩
      have hTarget :
          (v.committed i (.store x.tensor) []).atlas.dram? (·.exported)
            x.tensor = some (a.span l) :=
        Atlas.dram?_eq_some.mpr ⟨a, l, hTensor.1, hL, rfl⟩
      have hKept : v.Kept x.tensor :=
        ⟨hLegal.defined x hPresent, a, hTensor⟩
      have hLength : (now x.tensor).length = a.layout.depth := by
        rw [← hValue, Contents.length_read,
          hStocked.sizes x.tensor a hTensor.1]
        exact hStocked.size_eq (hLegal.suits x hPresent)
      refine ⟨_, copy?_eq_some hX hTarget, ?_⟩
      rw [hValue]
      constructor
      case chip =>
        refine hMirrors.chip.mono ?_ ?_ ?_
        · intro c hC
          rcases hC with ⟨hIn, hOpen⟩
          exact ⟨by simpa [committed] using hIn, hOpen⟩
        · exact fun p hP => List.mem_of_mem_eraseP hP
        · exact fun c => m.read_write_dram c _ a l
      case dram =>
        refine hMirrors.dram.write .exported hStocked.laid ?_ (.refl _)
          ?_ ?_ hTensor.1 hL (by simp) hKept hLength
        · exact fun u grown hGet => ⟨grown, hGet, rfl, fun _ _ => rfl⟩
        · exact fun p hP => List.mem_of_mem_eraseP hP
        · intro u hStored
          rcases List.mem_append.mp hStored with hOld | hNew
          · exact .inl hOld
          · cases List.mem_singleton.mp hNew
            exact .inr rfl

end

end

theorem CanCommit.exists_binding
    (hCommit : v.CanCommit i op bs)
    (hResult : op.writes = some t) :
    ∃ b, bs = [b] := by
  rcases places_cases hCommit.writes with ⟨hNone, -⟩ | ⟨_, b, -, hB, -⟩
  · cases hNone.symm.trans hResult
  · exact ⟨b, hB⟩

theorem CanCommit.eq_nil
    (hCommit : v.CanCommit i op bs)
    (hResult : op.writes = none) :
    bs = [] := by
  rcases places_cases hCommit.writes with ⟨-, hNil⟩ | ⟨_, _, hSome, -, -⟩
  · exact hNil
  · cases hResult.symm.trans hSome

/- Every operation of a program keeps the memories right. -/
theorem Mirrors.commit
    (hLegal : v.Legal program)
    (hStocked : v.Stocked n depth program)
    (hMirrors : v.Mirrors home now m)
    (hCommit : v.CanCommit i op bs) :
    v.Advances K depth home now m i op bs := by
  have hGet := hLegal.listed i op hCommit.pending
  have hTyped := (hStocked.form i op hGet).typed
  cases op with
  | load t =>
      rcases hCommit.exists_binding rfl with ⟨b, rfl⟩
      exact hMirrors.load hLegal hStocked hTyped hCommit
  | matMul input weights bias output =>
      rcases hCommit.exists_binding rfl with ⟨b, rfl⟩
      exact hMirrors.product hLegal hStocked hTyped hCommit
  | accumulate input output add =>
      cases add with
      | false =>
          rcases hCommit.exists_binding rfl with ⟨b, rfl⟩
          exact hMirrors.copy hLegal hStocked hTyped hCommit
      | true =>
          rcases hCommit.eq_nil rfl with rfl
          exact hMirrors.accumulate hLegal hStocked hTyped hCommit
  | activate input output activation =>
      rcases hCommit.exists_binding rfl with ⟨b, rfl⟩
      exact hMirrors.activate hLegal hStocked hTyped hCommit
  | store t =>
      rcases hCommit.eq_nil rfl with rfl
      exact hMirrors.export hLegal hStocked hTyped hCommit
  | spill t => cases hTyped
  | reload t => cases hTyped

end Commitment

------------------------------------------------------------
-- Moves
------------------------------------------------------------

section Moves

variable {n : Nat} {depth : TensorId → Nat} {program : List Operation}
variable {home now : TensorId → List α} {K : Kernel α}
variable {v v' : View} {m : Contents α}
variable {t : TensorId} {b : Binding}

/- A tensor that leaves the chip changes no memory. -/
theorem Mirrors.close
    {time : Nat}
    {spilled : Bool}
    (hMirrors : v.Mirrors home now m) :
    Mirrors home now
      { v with history := Systolic.close v.history t time spilled } m := by
  constructor
  case chip =>
    refine hMirrors.chip.mono ?_ (fun _ hP => hP) (fun _ => rfl)
    intro b hB
    exact ((present_close rfl).mp hB).1
  case dram =>
    exact hMirrors.dram.mono rfl (fun _ hP => hP) (fun _ hStored => hStored)
      (fun _ _ => rfl) (fun _ _ => rfl)

/- A tensor that comes back has its value. -/
theorem Mirrors.reload
    {tensor : Tensor}
    (hLegal : v.Legal program)
    (hStocked : v.Stocked n depth program)
    (hMirrors : v.Mirrors home now m)
    (hPlaces : v.Places t b)
    (hEntry : v.tensors.get? t = some tensor)
    (hCopy : tensor.dramCopy.isSome)
    (hLoaded : tensor.home.isSome → now t = home t) :
    ∃ m',
      Atlas.step { bindings := v.history ++ [b], tensors := v.tensors } K
        v.position m (.reload t) = some m' ∧
      Mirrors home now
        { v with
          history := v.history ++ [b]
          done := v.done ++ [.reload t] } m' := by
  rcases Option.isSome_iff_exists.mp hCopy with ⟨l, hL⟩
  have hValue : m.read (tensor.span l) = now t := by
    unfold Tensor.dramCopy at hL
    cases hSpilled : tensor.spilled with
    | none =>
        rw [hSpilled, Option.none_or] at hL
        rw [hLoaded (Option.isSome_iff_exists.mpr ⟨l, hL⟩)]
        exact hMirrors.dram.homes t tensor l hEntry hL
    | some k =>
        rw [hSpilled, Option.some_or] at hL
        cases hL
        exact (hMirrors.dram.spilled t tensor l hEntry hSpilled).2
  have hSource :
      Atlas.dram? { bindings := v.history ++ [b], tensors := v.tensors }
        (·.dramCopy) t = some (tensor.span l) :=
    Atlas.dram?_eq_some.mpr ⟨tensor, l, hEntry, hL, rfl⟩
  refine ⟨_, copy?_eq_some hSource
    (result?_of_places hLegal.toSettled hPlaces), ?_⟩
  rw [hValue]
  refine hMirrors.place hPlaces rfl rfl (fun _ hP => hP) ?_
    (fun _ _ => rfl) (fun _ => rfl) (fun _ _ _ => rfl) (fun _ _ => rfl) ?_
  · intro u hStored
    rcases List.mem_append.mp hStored with hOld | hNew
    · exact hOld
    · cases List.mem_singleton.mp hNew
  · rw [← hValue, Contents.length_read, hStocked.size_of_places hPlaces]
    exact hStocked.sizes t tensor hEntry

/- A tensor without a copy in DRAM is stored before it leaves. -/
theorem Mirrors.spill
    {tensor : Tensor}
    (hLegal : v.Legal program)
    (hStocked : v.Stocked n depth program)
    (hMirrors : v.Mirrors home now m)
    (hPresent : v.Present b)
    (hKind : b.kind = .scratchpad)
    (hEntry : v.tensors.get? b.tensor = some tensor)
    (hCopy : tensor.dramCopy = none)
    (hStored : v.Leaves b.tensor v')
    (hHistory :
      v'.history = Systolic.close v.history b.tensor v.position true)
    (hTensors :
      v'.tensors = v.tensors.modify b.tensor
        (·.setSlot .spilled
          (some { bank := .dram0, address := v.dram.used .dram0 })))
    (hPending : v'.pending = v.pending)
    (hDone : v'.done = v.done ++ [.spill b.tensor]) :
    ∃ m',
      v'.atlas.step K v.position m (.spill b.tensor) = some m' ∧
      v'.Mirrors home now m' := by
  let l : DramLocation :=
    { bank := .dram0, address := v.dram.used .dram0 }
  let grown := tensor.setSlot .spilled (some l)
  have hGrown : v'.tensors.get? b.tensor = some grown := by
    rw [hTensors, TensorTable.get?_modify, if_pos rfl, hEntry,
      Option.map_some]
  have hValue : m.read b.span = now b.tensor := by
    apply hMirrors.chip b hPresent
    intro hOther
    rw [hKind] at hOther
    cases hOther
  have hSource : v'.atlas.operand? v.position b.tensor = some b.span := by
    rw [← operand?_of_present hLegal.toSettled hPresent]
    unfold atlas
    rw [hHistory]
    exact Atlas.operand?_close (Nat.le_refl _) _ _
  have hTarget :
      v'.atlas.dram? (·.spilled) b.tensor = some (grown.span l) :=
    Atlas.dram?_eq_some.mpr ⟨grown, l, hGrown, rfl, rfl⟩
  have hSub : ∀ p ∈ v'.pending, p ∈ v.pending := by
    rw [hPending]
    exact fun _ hP => hP
  have hStep : v.Step v' := .leave hStored
  refine ⟨_, copy?_eq_some hSource hTarget, ?_⟩
  rw [hValue]
  constructor
  case chip =>
    refine hMirrors.chip.mono ?_ hSub ?_
    · intro c hC
      exact ((present_close hHistory).mp hC).1
    · exact fun c => m.read_write_dram c _ grown l
  case dram =>
    refine hMirrors.dram.write .spilled (hStocked.step hStep).laid ?_ ?_
      hSub ?_ hGrown rfl (by simp)
      (kept_of_present hLegal hPresent hKind) ?_
    · intro u new hNew
      rw [hTensors, TensorTable.get?_modify] at hNew
      split at hNew
      case isTrue hSame =>
        rcases Option.map_eq_some_iff.mp hNew with ⟨old, hOld, rfl⟩
        refine ⟨old, hOld, Tensor.layout_setSlot _ _ _, ?_⟩
        intro other hOther
        rw [Tensor.slot?_setSlot, if_neg]
        intro hSlot
        exact hOther (by rw [hSame, hSlot])
      case isFalse => exact ⟨new, hNew, rfl, fun _ _ => rfl⟩
    · rw [hTensors]
      exact extends_spilled hEntry hCopy l
    · intro u hU
      rw [hDone] at hU
      rcases List.mem_append.mp hU with hOld | hNew
      · exact .inl hOld
      · cases List.mem_singleton.mp hNew
    · rw [← hValue, Contents.length_read]
      change b.size = tensor.layout.depth
      rw [hStocked.size_eq (hLegal.suits b hPresent),
        hStocked.sizes b.tensor tensor hEntry]

end Moves

------------------------------------------------------------
-- Schedules
------------------------------------------------------------

section Schedules

variable {n : Nat} {depth : TensorId → Nat} {program : List Operation}
variable {home env : TensorId → List α} {K : Kernel α}
variable {table : TensorTable} {v v' : View} {m₀ m : Contents α}

/-
  What is committed can be replayed, and leaves the memories with
  the values of the environment after it.
-/
def Replays
    (K : Kernel α)
    (depth : TensorId → Nat)
    (home env : TensorId → List α)
    (m₀ : Contents α)
    (v : View) : Prop :=
  ∃ m, v.atlas.replay K v.done m₀ = some m ∧
    v.Mirrors home ((K.semantics depth).exec home v.done env) m

/- The last operation is replayed after all others. -/
theorem replay_snoc_eq_some
    {op : Operation}
    {m' : Contents α}
    (hStep : v.Step v')
    (hDone : v'.done = v.done ++ [op])
    (hReplay : v.atlas.replay K v.done m₀ = some m)
    (hLast : v'.atlas.step K v.position m op = some m') :
    v'.atlas.replay K v'.done m₀ = some m' := by
  rw [hDone, Atlas.replay_snoc,
    Atlas.replay_mono hStep.agrees hReplay]
  exact hLast

/- What is still read is written by the program. -/
theorem written_of_read
    {t : TensorId}
    (hSingle : SingleAssignment program)
    (hQueued : v.Queued program)
    (hRead : ¬ v.Unread t) :
    t ∈ written program := by
  by_contra hNot
  apply hRead
  intro p hP hReads
  rcases hSingle.exists_writer (hQueued.listed p.1 p.2 hP) hReads with
    ⟨j, writer, -, hGet, hWrites⟩
  exact hNot (List.mem_filterMap.mpr
    ⟨writer, List.mem_of_getElem? hGet, hWrites⟩)

theorem Replays.step
    (hForm : WellFormed n table program)
    (hTable : v.tensors.Extends table)
    (hLegal : v.Legal program)
    (hStocked : v.Stocked n depth program)
    (hFollows : v.Follows (K.semantics depth) home env table program)
    (hReplays : v.Replays K depth home env m₀)
    (hStep : v.Step v') :
    v'.Replays K depth home env m₀ := by
  rcases hReplays with ⟨m, hReplay, hMirrors⟩
  let S := K.semantics depth
  cases hStep with
  | leave hLeaves =>
      cases hLeaves with
      | copied hPresent hTensor hKind hEntry hCopy hRead =>
          have hStep := Step.leave
            (.copied hPresent hTensor hKind hEntry hCopy hRead)
          exact ⟨m, Atlas.replay_mono hStep.agrees hReplay,
            hMirrors.close⟩
      | @stored b tensor hPresent hTensor hKind hEntry hCopy hFits hRead =>
          subst hTensor
          have hLeaves :=
            Leaves.stored hPresent rfl hKind hEntry hCopy hFits hRead
          rcases hMirrors.spill (K := K) hLegal hStocked hPresent hKind
              hEntry hCopy hLeaves rfl rfl rfl rfl with
            ⟨m', hLast, hMirrors'⟩
          refine ⟨m', replay_snoc_eq_some (.leave hLeaves) rfl hReplay
            hLast, ?_⟩
          rw [S.exec_snoc]
          exact hMirrors'
  | @reload t b tensor hPlaces hKind hEntry hCopy hDefined hRead =>
      have hStep := Step.reload hPlaces hKind hEntry hCopy hDefined hRead
      have hLoaded :
          tensor.home.isSome → S.exec home v.done env t = home t := by
        intro hHome
        have hHolds : v.tensors.Holds t .scratchpad tensor := by
          rcases hPlaces.suits with ⟨other, hOther, hSame, -⟩
          rw [hPlaces.tensor_eq] at hOther
          cases hEntry.symm.trans hOther
          exact ⟨hEntry, hSame.symm.trans hKind⟩
        rcases hHolds.extend hTable with ⟨grown, hGrown, hGrows⟩
        have hWritten := written_of_read hForm.singleAssignment
          hLegal.toQueued hRead
        rw [hFollows.settled t grown hGrown hWritten hDefined]
        rw [← hGrows.home_eq] at hHome
        exact S.exec_of_home home hForm hGrown hHome hWritten env
      rcases hMirrors.reload (K := K) hLegal hStocked hPlaces hEntry
          hCopy hLoaded with
        ⟨m', hLast, hMirrors'⟩
      refine ⟨m', replay_snoc_eq_some hStep rfl hReplay hLast, ?_⟩
      rw [S.exec_snoc]
      exact hMirrors'
  | @commit i op bs hCommit =>
      rcases hMirrors.commit (K := K) hLegal hStocked hCommit with
        ⟨m', hLast, hMirrors'⟩
      refine ⟨m', replay_snoc_eq_some (.commit hCommit) rfl hReplay
        hLast, ?_⟩
      rw [committed, S.exec_snoc]
      exact hMirrors'
  | drop hOnChip hUnread =>
      have hStep := Step.drop hOnChip hUnread
      exact ⟨m, Atlas.replay_mono hStep.agrees hReplay, hMirrors.close⟩

/- Before the first step only the homes in DRAM are filled. -/
theorem replays_start
    {bench : Workbench}
    (hSpilled :
      ∀ t tensor, bench.tensors.get? t = some tensor →
        tensor.spilled = none)
    (hHomes :
      ∀ t tensor l, bench.tensors.get? t = some tensor →
        tensor.home = some l → m₀.read (tensor.span l) = home t) :
    (start bench program).Replays K depth home env m₀ := by
  refine ⟨m₀, rfl, ?_, ?_⟩
  · intro b hPresent
    cases hPresent.1
  · constructor
    case homes => exact hHomes
    case spilled =>
      intro t tensor l hGet hL
      cases (hSpilled t tensor hGet).symm.trans hL
    case exported =>
      intro t tensor l _ _ hStored
      cases hStored

/- Everything that a scheduler commits can be replayed. -/
theorem Steps.replays
    {bench : Workbench}
    (hForm : WellFormed n table program)
    (hStocked : (start bench program).Stocked n depth program)
    (hSpilled :
      ∀ t tensor, bench.tensors.get? t = some tensor →
        tensor.spilled = none)
    (hHomes :
      ∀ t tensor l, bench.tensors.get? t = some tensor →
        tensor.home = some l → m₀.read (tensor.span l) = home t)
    (hSteps : (start bench program).Steps v)
    (hTable : v.tensors.Extends table) :
    v.Replays K depth home env m₀ := by
  have hSingle := hForm.singleAssignment
  induction hSteps with
  | refl => exact replays_start hSpilled hHomes
  | tail hFirst hStep ih =>
      have hLegal := (legal_start hSingle bench).steps hSingle hFirst
      have hBefore :=
        (hStep.extends hLegal.toSettled).trans hTable
      have hFollows :=
        Steps.follows (K.semantics depth) home env hForm hFirst
      exact (ih hBefore).step hForm hBefore hLegal
        (hStocked.steps hFirst) hFollows hStep

end Schedules

end View

end Systolic
