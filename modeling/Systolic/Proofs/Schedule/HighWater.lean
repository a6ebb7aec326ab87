import Systolic.Proofs.Memory.Gaps
import Systolic.Proofs.Schedule.Evictions
import Systolic.Proofs.Lowering.Layouts

/-
  This file proves how far a schedule reaches into the memories
  on the chip, as long as the scheduler adds no operation of its
  own. A request is never placed further above what is taken
  than its alignment asks for, so every binding ends below the
  sum of what was asked for up to then. All above that is free,
  and what is still to be written fits there if there is room
  for the whole program.

  Key definitions include:
    * `Journal.Bare`
    * `Journal.Low`

  Key theorems include:
    * `View.Evicts.onChip`
    * `Journal.Low.step`
    * `Journal.Low.fits`
-/

namespace Systolic

------------------------------------------------------------
-- Free Regions above a Mark
------------------------------------------------------------

namespace FreeList

section Mark

variable {l : FreeList}
variable {mark size alignment : Nat}
variable (hSound : l.Sound)
variable (hSize : 0 < size)
variable (hAbove : ∀ a, mark ≤ a → a < l.capacity → l.Free a)

include hSound hAbove in
/- A free region does not start above a mark from which all is free. -/
theorem Sound.start_le
    {r : Region}
    (hMem : r ∈ l.regions)
    (hPos : 0 < r.length) :
    r.start ≤ mark := by
  by_contra hStart
  have hStop := hSound.inside r hMem
  have hEnd : r.stop = r.start + r.length := rfl
  have hSeparated := hSound.separated (by omega)
  have hHas : r.Has r.start := ⟨Nat.le_refl _, by omega⟩
  -- The address before the region is free, and so in the same region.
  have hCovers :
      ∀ a, Region.Has { start := r.start - 1, length := 2 } a →
        Covers l.regions a := by
    rintro a ⟨hFrom, hTo⟩
    simp only [Region.stop] at hFrom hTo
    rcases Nat.lt_or_ge a r.start with hBefore | hAt
    · exact hAbove a (by omega) (by omega)
    · have hEq : a = r.start := by omega
      exact hEq ▸ ⟨r, hMem, hHas⟩
  rcases hSeparated.inside_of_covers (by simp) hCovers with
    ⟨s, hS, hInside⟩
  simp only [Region.Inside, Region.stop] at hInside
  have hSame : s = r := by
    refine hSeparated.eq_of_has hS hMem ?_ hHas
    simp only [Region.Has, Region.stop]
    omega
  rw [hSame] at hInside
  omega

include hSound hSize hAbove

/- A request is placed as near to the mark as its alignment allows. -/
theorem Sound.bestFit_le
    {address : Nat}
    (hFit : l.bestFit size alignment = some address) :
    address ≤ mark + (alignment - 1) := by
  rcases Option.map_eq_some_iff.mp hFit with ⟨⟨r, a⟩, hFound, rfl⟩
  rcases smallestFit_mem hFound with ⟨hMem, hFits⟩
  have hInside := hSound.inside r hMem
  simp only [Region.fit?] at hFits
  split at hFits
  case isFalse => cases hFits
  case isTrue hStop =>
    cases hFits
    have hLength := hSound.pos (by omega) r hMem
    have hStart := hSound.start_le hAbove hMem hLength
    have hNear := Count.roundUp_le_add r.start (max alignment 1)
    -- An address that wraps around is only lower.
    have hWrap :
        Count.mulWrap (Count.ceilDiv r.start (max alignment 1))
            (max alignment 1) ≤
          Count.roundUp r.start (max alignment 1) :=
      Nat.mod_le _ _
    simp only
    omega

/- A request for which there is room above the mark is placed. -/
theorem Sound.bestFit_isSome
    (hRoom : mark + (alignment - 1) + size ≤ l.capacity) :
    (l.bestFit size alignment).isSome = true := by
  let a := Count.roundUp mark (max alignment 1)
  have hLeast := isLeast_roundUp alignment mark
  have hFrom : mark ≤ a := hLeast.1.2
  have hNear : a ≤ mark + (max alignment 1 - 1) :=
    Count.roundUp_le_add mark (max alignment 1)
  have hCovers :
      ∀ b, Region.Has { start := a, length := size } b →
        Covers l.regions b := by
    rintro b ⟨hStart, hStop⟩
    simp only [Region.stop] at hStart hStop
    exact hAbove b (by omega) (by omega)
  rcases (hSound.separated (by omega)).inside_of_covers hSize hCovers with
    ⟨r, hMem, hInside⟩
  have hHolds : r.Holds size alignment := ⟨a, hLeast.1.1, hInside⟩
  exact bestFit_isSome_of_holds hMem hHolds

end Mark

end FreeList

------------------------------------------------------------
-- Room
------------------------------------------------------------

section Room

/- Sums start from the literal zero. -/
attribute [local instance (high)] Zero.ofOfNat0

/-
  The vectors that are set aside for a tensor: its own, and in
  the scratchpad those that its alignment may leave unused.
-/
def Tensor.room (tensor : Tensor) : Nat :=
  match tensor.kind with
  | .scratchpad => tensor.layout.depth + tensor.layout.alignment - 1
  | .accumulator => tensor.layout.depth

/- The vectors of one memory that are set aside for some tensors. -/
def TensorTable.room
    (table : TensorTable)
    (kind : MemoryKind)
    (ts : List TensorId) : Nat :=
  (((ts.filterMap table.get?).filter
    (fun tensor => tensor.kind = kind)).map Tensor.room).sum

theorem Tensor.Aligned.room_eq
    {tensor : Tensor}
    (hAligned : tensor.Aligned) :
    tensor.room = tensor.layout.depth + (tensor.layout.alignment - 1) := by
  have hPos := hAligned.pos
  unfold Tensor.room
  cases hKind : tensor.kind with
  | scratchpad =>
      dsimp only
      omega
  | accumulator => simp [hAligned.accumulator hKind]

namespace TensorTable

variable {table : TensorTable} {kind : MemoryKind} {ts us : List TensorId}

theorem room_append
    (table : TensorTable)
    (kind : MemoryKind)
    (ts us : List TensorId) :
    table.room kind (ts ++ us) = table.room kind ts + table.room kind us := by
  simp [room]

theorem room_perm
    (hPerm : ts.Perm us) :
    table.room kind ts = table.room kind us :=
  (((hPerm.filterMap _).filter _).map _).sum_nat

theorem room_singleton
    {t : TensorId}
    {tensor : Tensor}
    (hGet : table.get? t = some tensor)
    (hKind : tensor.kind = kind) :
    table.room kind [t] = tensor.room := by
  simp [room, hGet, hKind]

theorem room_le_of_mem
    {t : TensorId}
    {tensor : Tensor}
    (hMem : t ∈ ts)
    (hGet : table.get? t = some tensor) :
    tensor.room ≤ table.room tensor.kind ts := by
  apply List.le_sum_of_mem
  apply List.mem_map_of_mem
  rw [List.mem_filter]
  exact ⟨List.mem_filterMap.mpr ⟨t, hMem, hGet⟩, decide_eq_true rfl⟩

end TensorTable

end Room

------------------------------------------------------------
-- Views without Evictions
------------------------------------------------------------

namespace View

variable {v v' : View}

/- A step that commits nothing leaves every tensor its places. -/
theorem Step.tensors_eq
    (hStep : v.Step v')
    (hDone : v'.done = v.done) :
    v'.tensors = v.tensors := by
  cases hStep with
  | leave hLeaves =>
      cases hLeaves with
      | copied => rfl
      | stored => simp at hDone
  | reload => rfl
  | commit => rfl
  | drop => rfl

/-
  A pending operation finds what it reads as soon as it is
  defined, if nothing was evicted: only what is not read any
  more was dropped.
-/
theorem Evicts.onChip
    {program : List Operation}
    {i : Nat}
    {op : Operation}
    {t : TensorId}
    (hSingle : SingleAssignment program)
    (hQueued : v.Queued program)
    (hAccounted : v.Accounted program)
    (hEvicts : v.Evicts)
    (hUnspilled : ∀ b ∈ v.history, b.spilled = false)
    (hMem : (i, op) ∈ v.pending)
    (hReads : t ∈ op.reads)
    (hDefined : v.Defined t) :
    v.OnChip t := by
  have hWritten : t ∈ written v.done := by
    have hListed := List.mem_of_getElem? (hQueued.listed i op hMem)
    rcases List.mem_filterMap.mp (hSingle.mem_written hListed hReads) with
      ⟨writer, hWriter, hWrites⟩
    rcases List.mem_iff_getElem?.mp hWriter with ⟨k, hGet⟩
    rcases hQueued.committed k writer hGet with hWaits | hDone
    · exact absurd hWrites (hDefined (k, writer) hWaits)
    · exact List.mem_filterMap.mpr ⟨writer, hDone, hWrites⟩
  rw [← hAccounted.bound] at hWritten
  rcases List.mem_map.mp hWritten with ⟨b, hB, rfl⟩
  refine ⟨b, ⟨hB, ?_⟩, rfl⟩
  by_contra hEnded
  have hUnread := hEvicts.dropped b hB
    (Option.isSome_iff_ne_none.mpr hEnded) (hUnspilled b hB)
  exact hUnread (i, op) hMem hReads

end View

------------------------------------------------------------
-- Journals without Added Operations
------------------------------------------------------------

namespace Journal

variable {task : Task} {table : TensorTable} {j j' : Journal}

/- Every committed operation has its place in the program. -/
def Bare (j : Journal) : Prop :=
  ∀ c ∈ j.ops, c.origin ≠ none

/-
  No tensor was given another place in DRAM, none was moved, and
  every binding ends below the room of all that is written.
-/
structure Low
    (table : TensorTable)
    (j : Journal) : Prop where
  tensors_eq : j.view.tensors = table
  plain : ∀ op ∈ j.view.done, op.isMove = false
  below :
    ∀ b ∈ j.view.history,
      b.region.stop ≤ table.room b.kind (written j.view.done)

theorem low_start
    (bench : Workbench)
    (program : List Operation) :
    (start bench program).Low bench.tensors := by
  constructor
  case tensors_eq => rfl
  case plain => simp [start, View.start]
  case below => simp [start, View.start]

/- The memories are free above the room of what is written. -/
theorem Low.above
    {kind : MemoryKind}
    {capacity : Nat}
    {l : FreeList}
    (hLow : j.Low table)
    (hSpares : j.view.Spares kind capacity l)
    (a : Nat)
    (hMark : table.room kind (written j.view.done) ≤ a)
    (hInside : a < l.capacity) :
    l.Free a := by
  rw [hSpares.free_iff, ← hSpares.capacity_eq]
  refine ⟨hInside, ?_⟩
  rintro b hPresent hKind ⟨-, hStop⟩
  have hBelow := hLow.below b hPresent.1
  rw [hKind] at hBelow
  omega

/- A binding at the place that fits best ends below the room. -/
theorem Low.stop_le
    {b : Binding}
    {t : TensorId}
    (hAligned : table.Aligned)
    (hDepth :
      ∀ t tensor, table.get? t = some tensor → 0 < tensor.layout.depth)
    (hLow : j.Low table)
    (hPlaces : j.view.Places t b)
    (hFits : task.Fits j.view b) :
    b.region.stop ≤ table.room b.kind (written j.view.done ++ [t]) := by
  rcases hFits with ⟨tensor, l, hGet, hSpares, hFit⟩
  rcases hPlaces.suits with ⟨tensor', hGet', hKind, hSize⟩
  cases hGet.symm.trans hGet'
  rw [hLow.tensors_eq] at hGet
  have hNear := hSpares.sound.bestFit_le (hDepth _ _ hGet)
    (hLow.above hSpares) hFit
  rw [hPlaces.tensor_eq] at hGet
  rw [TensorTable.room_append,
    TensorTable.room_singleton hGet hKind.symm,
    (hAligned _ _ hGet).room_eq]
  simp only [Binding.region, Region.stop]
  omega

/- The operations before a step were there after it. -/
theorem Step.bare
    (hStep : j.Step task j')
    (hBare : j'.Bare) :
    j.Bare := by
  intro c hC
  cases hStep with
  | silent => exact hBare c hC
  | insert => exact hBare c (List.mem_append_left _ hC)
  | commit => exact hBare c (List.mem_append_left _ hC)

/- Every step that adds no operation keeps the bindings low. -/
theorem Low.step
    (hAligned : table.Aligned)
    (hDepth :
      ∀ t tensor, table.get? t = some tensor → 0 < tensor.layout.depth)
    (hPlain : ∀ op ∈ task.program, op.isMove = false)
    (hLegal : j.view.Legal task.program)
    (hLow : j.Low table)
    (hStep : j.Step task j')
    (hBare : j'.Bare) :
    j'.Low table := by
  cases hStep with
  | @silent v hStep _ hDone =>
      rcases hStep.silent_cases hDone with ⟨t, time, spilled, hHistory⟩
      refine ⟨(hStep.tensors_eq hDone).trans hLow.tensors_eq, ?_, ?_⟩
      · change ∀ op ∈ v.done, op.isMove = false
        rw [hDone]
        exact hLow.plain
      · change ∀ b ∈ v.history,
          b.region.stop ≤ table.room b.kind (written v.done)
        intro b hB
        rw [hDone]
        rw [hHistory, mem_close] at hB
        rcases hB with ⟨hOld, -⟩ | ⟨c, hC, -, -, rfl⟩
        · exact hLow.below b hOld
        · exact hLow.below c hC
  | @insert v c e _ _ _ hOrigin =>
      exact absurd hOrigin (hBare c (by simp [entered]))
  | @commit i bs c e hCommit _ _ _ hFits =>
      refine ⟨hLow.tensors_eq, ?_, ?_⟩
      · intro op hOp
        rcases List.mem_append.mp hOp with hOld | hNew
        · exact hLow.plain op hOld
        · rw [List.mem_singleton.mp hNew]
          exact hPlain _
            (List.mem_of_getElem? (hLegal.listed _ _ hCommit.pending))
      · intro b hB
        change b.region.stop ≤
          table.room b.kind (written (j.view.done ++ [c.operation]))
        rw [written_append, written_singleton]
        rcases List.mem_append.mp hB with hOld | hNew
        · have hBelow := hLow.below b hOld
          rw [TensorTable.room_append]
          omega
        · rcases View.places_cases hCommit.writes with
            ⟨-, rfl⟩ | ⟨t, b', hWrites, rfl, hPlaces⟩
          · cases hNew
          · cases List.mem_singleton.mp hNew
            rw [hWrites]
            exact hLow.stop_le hAligned hDepth hPlaces (hFits b hNew)

/- Without moves, a program is what is committed and what is pending. -/
theorem Low.perm
    {program : List Operation}
    (hLow : j.Low table)
    (hAccounted : j.view.Accounted program) :
    (j.view.done ++ j.view.pending.map Prod.snd).Perm program := by
  have hAll : j.view.done.filter (fun op => !op.isMove) = j.view.done := by
    rw [List.filter_eq_self]
    intro op hOp
    simp [hLow.plain op hOp]
  have hShared := hAccounted.shared
  rw [hAll] at hShared
  exact hShared

/-
  If there is room for all that a program writes, then a result
  of a pending operation fits.
-/
theorem Low.fits
    {program : List Operation}
    {i : Nat}
    {op : Operation}
    {t : TensorId}
    {tensor : Tensor}
    {capacity : Nat}
    {l : FreeList}
    (hAligned : table.Aligned)
    (hDepth : 0 < tensor.layout.depth)
    (hLow : j.Low table)
    (hAccounted : j.view.Accounted program)
    (hMem : (i, op) ∈ j.view.pending)
    (hWrites : op.writes = some t)
    (hGet : table.get? t = some tensor)
    (hSpares : j.view.Spares tensor.kind capacity l)
    (hRoom : table.room tensor.kind (written program) ≤ capacity) :
    tensor.layout.depth ≤ capacity ∧
      (l.bestFit tensor.layout.depth tensor.layout.alignment).isSome =
        true := by
  have hPending : t ∈ written (j.view.pending.map Prod.snd) :=
    List.mem_filterMap.mpr ⟨op, List.mem_map_of_mem hMem, hWrites⟩
  have hOwn := TensorTable.room_le_of_mem hPending hGet
  have hWhole :
      table.room tensor.kind (written program) =
        table.room tensor.kind (written j.view.done) +
          table.room tensor.kind (written (j.view.pending.map Prod.snd)) := by
    rw [← TensorTable.room_append, ← written_append]
    exact (TensorTable.room_perm ((hLow.perm hAccounted).filterMap _)).symm
  rw [(hAligned t tensor hGet).room_eq] at hOwn
  refine ⟨by omega, ?_⟩
  apply hSpares.sound.bestFit_isSome hDepth (hLow.above hSpares)
  rw [hSpares.capacity_eq]
  omega

end Journal

end Systolic
