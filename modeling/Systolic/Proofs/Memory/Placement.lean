import Systolic.Proofs.Memory.Gaps

/-
  This file proves that a request for room is placed whenever
  there is room: some aligned address has enough vectors after
  it that no tensor on the chip has. The request is placed in
  the smallest gap that can hold it, and nothing but its binding
  and the counts change.

  Key definitions include:
    * `Memory.Adds`
    * `Memory.PlacesBest`

  Key theorems include:
    * `Memory.Sound.shares`
    * `Memory.Sound.allocate_of_fit`
    * `Memory.allocate_of_unfit`
    * `Memory.placesBest_serveAll`
-/

namespace Systolic

namespace Memory

variable {m : Memory} {pins : List TensorId} {t : TensorId}

theorem mem_regions
    {residents : List Resident}
    {kind : MemoryKind}
    {region : Region} :
    region ∈ regions residents kind ↔
      ∃ r ∈ residents, r.binding.kind = kind ∧
        r.binding.region = region := by
  simp only [regions, List.mem_map, List.mem_filter, decide_eq_true_eq,
    and_assoc]

/- Free regions and the tensors on the chip share out each memory. -/
theorem Sound.shares
    (hSound : m.Sound pins)
    (kind : MemoryKind) :
    (m.freeList kind).Shares (regions m.residents kind) := by
  constructor
  case sound => exact hSound.lists kind
  case within =>
    intro region hRegion
    rcases mem_regions.mp hRegion with ⟨r, hR, rfl, rfl⟩
    exact hSound.resident_inside hR
  case apart =>
    refine ((live_perm_regions m kind).pairwise_iff ?_).mp
      (List.pairwise_map.mpr (hSound.live_apart kind))
    intro r s hApart hOverlaps
    exact hApart ⟨hOverlaps.2, hOverlaps.1⟩
  case taken =>
    intro region hRegion
    rcases mem_regions.mp hRegion with ⟨r, hR, rfl, rfl⟩
    exact hSound.taken r hR
  case counted =>
    have hHeld : extent (regions m.residents kind) = held m.residents kind := by
      rw [extent, regions, List.map_map]
      rfl
    rw [hHeld]
    exact hSound.counted kind

------------------------------------------------------------
-- New Bindings
------------------------------------------------------------

/-
  Memories that differ from others by one new binding, by the
  count of bindings and by the peaks.
-/
structure Adds
    (m : Memory)
    (b : Binding)
    (m' : Memory) : Prop where
  residents :
    m'.residents = m.residents ++
      [{ binding := b, entry := m.history.length, pins := 0
         nextUse := none }]
  history : m'.history = m.history ++ [b]
  clock : m'.clock = m.clock
  lists : ∀ kind, (m'.freeList kind).Sound
  capacity : ∀ kind, m'.capacity kind = m.capacity kind
  free_iff :
    ∀ a, (m'.freeList b.kind).Free a ↔
      (m.freeList b.kind).Free a ∧ ¬ b.region.Has a
  others : ∀ kind, kind ≠ b.kind → m'.freeList kind = m.freeList kind
  allocations : m'.stats.allocations = m.stats.allocations + 1
  spills : m'.stats.spills = m.stats.spills
  peak :
    ∀ kind, m'.stats.peak kind =
      if kind = b.kind then max (m.stats.peak kind) (m'.used kind)
      else m.stats.peak kind

theorem Sound.place_of_inside
    {kind : MemoryKind}
    {address size : Nat}
    {r : Region}
    (hSound : m.Sound pins)
    (hMem : r ∈ (m.freeList kind).regions)
    (hInside : Region.Inside { start := address, length := size } r)
    (hPos : 0 < size) :
    ∃ m', place t kind { start := address, length := size } m = .ok () m' ∧
      m.Adds (.opened t kind address size m.clock) m' := by
  rcases FreeList.reserve?_isSome hMem hInside with ⟨l, hReserve⟩
  rcases FreeList.reserve?_spec (hSound.lists kind) hPos hReserve with
    ⟨hL, hCapacity, hFree, -⟩
  refine ⟨_, by rw [place, hReserve], ?_⟩
  constructor
  case residents => rfl
  case history => rfl
  case clock => cases kind <;> rfl
  case lists =>
    intro other
    change ((m.setFreeList kind l).freeList other).Sound
    rw [freeList_setFreeList]
    split
    case isTrue => exact hL
    case isFalse => exact hSound.lists other
  case capacity => exact m.capacity_setFreeList hCapacity
  case free_iff =>
    intro a
    change ((m.setFreeList kind l).freeList kind).Free a ↔ _
    rw [freeList_setFreeList, if_pos rfl]
    exact hFree a
  case others =>
    intro other hOther
    change (m.setFreeList kind l).freeList other = _
    rw [freeList_setFreeList]
    exact if_neg hOther
  case allocations => cases kind <;> rfl
  case spills => cases kind <;> rfl
  case peak =>
    intro other
    cases kind <;> cases other <;> rfl

------------------------------------------------------------
-- Requests for Room
------------------------------------------------------------

section Allocate

variable {name : String} {layout : VectorLayout} {kind : MemoryKind}

/- A request that fits a free region is placed there. -/
theorem Sound.allocate_of_fit
    {address : Nat}
    (hSound : m.Sound pins)
    (name : String)
    (hUnwrapped : Count.Unwrapped (m.capacity kind) layout.alignment)
    (hAbsent : ¬ m.IsResident t)
    (hSize : 0 < layout.depth)
    (hRoom : layout.depth ≤ m.capacity kind)
    (hFit :
      (m.freeList kind).bestFit layout.depth layout.alignment =
        some address) :
    ∃ m', allocate t name layout kind m = .ok (.placed address) m' ∧
      m.Adds (.opened t kind address layout.depth m.clock) m' := by
  rcases (hSound.lists kind).bestFit_inside hUnwrapped hFit with
    ⟨r, hMem, hInside⟩
  rcases hSound.place_of_inside (t := t) hMem hInside hSize with
    ⟨m', hPlace, hAdds⟩
  refine ⟨m', ?_, hAdds⟩
  simp only [allocate, hAbsent, if_false, hFit, hPlace]
  rw [if_neg (by omega)]

/- A request that fits no free region is answered without a change. -/
theorem allocate_of_unfit
    (name : String)
    (hAbsent : ¬ m.IsResident t)
    (hSize : 0 < layout.depth)
    (hRoom : layout.depth ≤ m.capacity kind)
    (hFit :
      (m.freeList kind).bestFit layout.depth layout.alignment = none) :
    allocate t name layout kind m =
      match m.victims? kind layout.depth layout.alignment with
      | some victims => .ok (.spill kind victims) m
      | none =>
          .error
            (.outOfMemory name kind layout.depth (m.capacity kind)) m := by
  have hPasses :
      ¬ (layout.depth = 0 ∨ m.capacity kind < layout.depth) := by
    omega
  cases hVictims : m.victims? kind layout.depth layout.alignment with
  | none =>
      simp only [allocate, if_neg hAbsent, if_neg hPasses, hFit, hVictims]
  | some victims =>
      simp only [allocate, if_neg hAbsent, if_neg hPasses, hFit, hVictims]

theorem Sound.placed_iff_fits
    (hSound : m.Sound pins)
    (name : String)
    (hUnwrapped : Count.Unwrapped (m.capacity kind) layout.alignment)
    (hAbsent : ¬ m.IsResident t)
    (hSize : 0 < layout.depth)
    (hRoom : layout.depth ≤ m.capacity kind) :
    (∃ a m', allocate t name layout kind m = .ok (.placed a) m') ↔
      m.Fits layout kind := by
  unfold Fits
  cases hFit : (m.freeList kind).bestFit layout.depth layout.alignment with
  | some address =>
      rcases hSound.allocate_of_fit name hUnwrapped hAbsent hSize hRoom
          hFit with ⟨m', hRun, -⟩
      exact iff_of_true ⟨address, m', hRun⟩ rfl
  | none =>
      refine iff_of_false ?_ (by simp)
      rintro ⟨a, m', hRun⟩
      rw [allocate_of_unfit name hAbsent hSize hRoom hFit] at hRun
      split at hRun <;> cases hRun

/-
  What is wanted of the answer to a request for room: it is
  placed exactly if it has a place, at the best one, and with no
  other change. Without a place nothing changes.
-/
structure PlacesBest
    (m : Memory)
    (t : TensorId)
    (name : String)
    (layout : VectorLayout)
    (kind : MemoryKind) : Prop where
  placed_iff :
    (∃ a m', allocate t name layout kind m = .ok (.placed a) m') ↔
      HasPlace (m.capacity kind) (regions m.residents kind) layout.depth
        layout.alignment
  placed :
    ∀ a m', allocate t name layout kind m = .ok (.placed a) m' →
      Suits (m.capacity kind) (regions m.residents kind) layout.depth
          layout.alignment a ∧
        BestPlace (m.capacity kind) (regions m.residents kind) layout.depth
          layout.alignment a ∧
        m.Adds (.opened t kind a layout.depth m.clock) m'
  unplaced :
    (¬ ∃ a m', allocate t name layout kind m = .ok (.placed a) m') →
      m.leftBy (allocate t name layout kind) = m
  fits_iff :
    m.Fits layout kind ↔
      ∃ a m', allocate t name layout kind m = .ok (.placed a) m'

theorem Sound.placesBest
    (hSound : m.Sound pins)
    (hUnwrapped : Count.Unwrapped (m.capacity kind) layout.alignment)
    (hAbsent : ¬ m.IsResident t)
    (hSize : 0 < layout.depth)
    (hRoom : layout.depth ≤ m.capacity kind) :
    m.PlacesBest t name layout kind := by
  have hShares := hSound.shares kind
  have hPos : 0 < m.capacity kind := by omega
  have hFits := hSound.placed_iff_fits name hUnwrapped hAbsent hSize hRoom
  constructor
  case placed_iff =>
    exact hFits.trans (hShares.bestFit_isSome_iff hUnwrapped hPos hSize)
  case placed =>
    intro a m' hRun
    rcases Option.isSome_iff_exists.mp (hFits.mp ⟨a, m', hRun⟩) with
      ⟨address, hFit⟩
    rcases hSound.allocate_of_fit name hUnwrapped hAbsent hSize hRoom
        hFit with ⟨m₁, hRun', hAdds⟩
    cases hRun.symm.trans hRun'
    rcases hShares.bestFit_best hUnwrapped hPos hSize hFit with
      ⟨hSuits, hBest⟩
    exact ⟨hSuits, hBest, hAdds⟩
  case unplaced =>
    intro hNone
    have hFit := Option.not_isSome_iff_eq_none.mp (fun h => hNone (hFits.mpr h))
    unfold leftBy
    rw [allocate_of_unfit name hAbsent hSize hRoom hFit]
    cases m.victims? kind layout.depth layout.alignment <;> rfl
  case fits_iff => exact hFits.symm

end Allocate

/- The memories of a chip are small enough that no address wraps around. -/
theorem unwrapped_empty
    {localDepth accumulatorDepth alignment : Nat}
    (hLocal : localDepth < 2 ^ 63)
    (hAccumulator : accumulatorDepth < 2 ^ 63)
    (hAlignment : alignment < Count.limit)
    (kind : MemoryKind) :
    Count.Unwrapped ((empty localDepth accumulatorDepth).capacity kind)
      alignment := by
  refine ⟨?_, hAlignment⟩
  have hLimit : Count.limit = 2 * 2 ^ 63 := by decide
  rw [hLimit]
  cases kind with
  | scratchpad => exact Nat.mul_le_mul_left 2 (Nat.le_of_lt hLocal)
  | accumulator => exact Nat.mul_le_mul_left 2 (Nat.le_of_lt hAccumulator)

/-
  After any requests that release no pinned tensor, a tensor off
  the chip that is not larger than a memory is placed there
  exactly if it has a place, and at the best one. The memories
  are small enough that no address wraps around.
-/
theorem placesBest_serveAll
    (localDepth accumulatorDepth : Nat)
    (hLocal : localDepth < 2 ^ 63)
    (hAccumulator : accumulatorDepth < 2 ^ 63)
    (rs : List Request)
    (t : TensorId)
    (name : String)
    (layout : VectorLayout)
    (kind : MemoryKind)
    (hPermits : (empty localDepth accumulatorDepth).PermitsAll rs)
    (hAbsent : ¬ ((empty localDepth accumulatorDepth).serveAll rs).IsResident t)
    (hAlignment : layout.alignment < Count.limit)
    (hSize : 1 ≤ layout.depth)
    (hRoom :
      layout.depth ≤ (empty localDepth accumulatorDepth).capacity kind) :
    ((empty localDepth accumulatorDepth).serveAll rs).PlacesBest
      t name layout kind := by
  have hRuns :=
    (stable_empty localDepth accumulatorDepth).runs_serveAll hPermits
  rcases hRuns.sound with ⟨pins, hSound⟩
  have hUnwrapped := unwrapped_empty hLocal hAccumulator hAlignment kind
  rw [← hRuns.capacity kind] at hUnwrapped hRoom
  exact hSound.placesBest hUnwrapped hAbsent hSize hRoom

/- Tensors with gaps of three, four and six vectors between them. -/
def fragments : List Request :=
  [ .allocate ⟨0⟩ "a" (column 1 1) .scratchpad,
    .allocate ⟨1⟩ "b" (column 3 1) .scratchpad,
    .allocate ⟨2⟩ "c" (column 1 1) .scratchpad,
    .allocate ⟨3⟩ "d" (column 4 1) .scratchpad,
    .allocate ⟨4⟩ "e" (column 1 1) .scratchpad,
    .free ⟨1⟩,
    .spill ⟨3⟩ ]

theorem placesBest_fragments :
    (empty 16 4).PermitsAll fragments ∧
      ¬ ((empty 16 4).serveAll fragments).IsResident ⟨5⟩ ∧
      ((empty 16 4).serveAll fragments).PlacesBest
        ⟨5⟩ "f" (column 3 2) .scratchpad :=
  ⟨by decide, by decide,
    placesBest_serveAll 16 4 (by decide) (by decide) fragments ⟨5⟩ "f"
      (column 3 2) .scratchpad (by decide) (by decide) (by decide)
      (by decide) (by decide)⟩

/- The smallest gap has no even address with three vectors after it. -/
example :
    ((empty 16 4).serveAll fragments).scratchpad.regions =
        [⟨1, 3⟩, ⟨5, 4⟩, ⟨10, 6⟩] ∧
      ((empty 16 4).serveAll fragments).scratchpad.bestFit 3 2 =
        some 6 := by
  decide

end Memory

end Systolic
