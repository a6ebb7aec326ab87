import Systolic.Proofs.Memory.Placement

/-
  This file proves which tensors leave the scratchpad for a
  request that has no place: as few as possible of those that
  are not pinned, in the order of their next uses. The request
  is refused only if it has no place even without all of them.
  Once the victims have left, it has a place.

  Key definitions include:
    * `Memory.LeavingOrder`
    * `Memory.RoomWithout`
    * `Memory.Lacks`

  Key theorems include:
    * `Memory.Sound.victims?_eq_some`
    * `Memory.Sound.victims?_eq_none`
    * `Memory.Lacks.fits`
    * `Memory.Sound.forM_spill_ensures`
-/

namespace Systolic

------------------------------------------------------------
-- Sorted Lists
------------------------------------------------------------

section Sorting

variable {α : Type} {precedes : α → α → Bool}

theorem insertSorted_pairwise
    (hTotal : ∀ a b, precedes a b = true ∨ precedes b a = true)
    (hTrans :
      ∀ a b c, precedes a b = true → precedes b c = true →
        precedes a c = true)
    (a : α)
    {l : List α}
    (hSorted : l.Pairwise (fun a b => precedes a b = true)) :
    (insertSorted precedes a l).Pairwise
      (fun a b => precedes a b = true) := by
  induction l with
  | nil => exact List.pairwise_singleton _ _
  | cons b l ih =>
      rcases List.pairwise_cons.mp hSorted with ⟨hFirst, hRest⟩
      unfold insertSorted
      split
      case isTrue hBefore =>
        refine List.pairwise_cons.mpr ⟨?_, hSorted⟩
        refine List.forall_mem_cons.mpr ⟨hBefore, ?_⟩
        intro c hMem
        exact hTrans a b c hBefore (hFirst c hMem)
      case isFalse hNot =>
        refine List.pairwise_cons.mpr ⟨?_, ih hRest⟩
        intro c hMem
        rcases List.mem_cons.mp
            ((insertSorted_perm precedes a l).mem_iff.mp hMem) with
          rfl | hLater
        · exact (hTotal c b).resolve_left hNot
        · exact hFirst c hLater

theorem sortBy_pairwise
    (hTotal : ∀ a b, precedes a b = true ∨ precedes b a = true)
    (hTrans :
      ∀ a b c, precedes a b = true → precedes b c = true →
        precedes a c = true)
    (l : List α) :
    (sortBy precedes l).Pairwise (fun a b => precedes a b = true) := by
  induction l with
  | nil => exact .nil
  | cons a l ih => exact insertSorted_pairwise hTotal hTrans a ih

end Sorting

namespace Memory

variable {m : Memory} {pins : List TensorId}
variable {order : List Resident}

------------------------------------------------------------
-- The Order of Leaving
------------------------------------------------------------

/-
  One tensor leaves no later than another: its next use is
  further away, or as far and it is larger, or as large and its
  number is not higher.
-/
def LeavesFirst
    (r s : Resident) : Prop :=
  useRank s < useRank r ∨
    useRank r = useRank s ∧
      (s.binding.size < r.binding.size ∨
        r.binding.size = s.binding.size ∧
          r.tensor.index ≤ s.tensor.index)

/- A tensor without a next use is as far from it as any other. -/
theorem useRank_le_of_none
    {r s : Resident}
    (hNone : r.nextUse = none)
    (hCount : ∀ n ∈ s.nextUse, n ≤ Count.largest) :
    useRank s ≤ useRank r := by
  unfold useRank
  rw [hNone, Option.getD_none]
  cases hUse : s.nextUse with
  | none => exact Nat.le_refl _
  | some n => exact hCount n hUse

theorem leavesBefore_iff
    {r s : Resident} :
    leavesBefore r s = true ↔ LeavesFirst r s := by
  unfold leavesBefore LeavesFirst
  split
  case isTrue hRank =>
    split
    case isTrue hSize => simp [hRank, hSize]
    case isFalse hSize => simp [hRank, hSize]
  case isFalse hRank => simp [hRank]

theorem leavesFirst_total
    (r s : Resident) :
    LeavesFirst r s ∨ LeavesFirst s r := by
  unfold LeavesFirst
  omega

theorem leavesFirst_trans
    {r s q : Resident}
    (hFirst : LeavesFirst r s)
    (hSecond : LeavesFirst s q) :
    LeavesFirst r q := by
  unfold LeavesFirst at hFirst hSecond ⊢
  omega

/- The tensors of the scratchpad that are not pinned. -/
def evictables (m : Memory) : List Resident :=
  m.residents.filter (fun r => r.binding.kind = .scratchpad ∧ r.pins = 0)

theorem mem_evictables
    {r : Resident} :
    r ∈ m.evictables ↔
      r ∈ m.residents ∧ r.binding.kind = .scratchpad ∧ r.pins = 0 := by
  rw [evictables, List.mem_filter, decide_eq_true_iff]

/- The tensors that may leave, each no later than those after it. -/
structure LeavingOrder
    (m : Memory)
    (order : List Resident) : Prop where
  perm : order.Perm m.evictables
  sorted : order.Pairwise LeavesFirst

theorem leavingOrder_candidates (m : Memory) :
    m.LeavingOrder m.candidates := by
  refine ⟨sortBy_perm leavesBefore _, ?_⟩
  have hSorted :
      m.candidates.Pairwise (fun r s => leavesBefore r s = true) := by
    apply sortBy_pairwise
    · intro r s
      rw [leavesBefore_iff, leavesBefore_iff]
      exact leavesFirst_total r s
    · intro r s q
      rw [leavesBefore_iff, leavesBefore_iff, leavesBefore_iff]
      exact leavesFirst_trans
  exact hSorted.imp leavesBefore_iff.mp

theorem Sound.leavingOrder_distinct
    (hSound : m.Sound pins)
    (hOrder : m.LeavingOrder order) :
    (order.map Resident.tensor).Nodup := by
  refine (hOrder.perm.map Resident.tensor).nodup_iff.mpr ?_
  exact hSound.distinct.sublist (List.filter_sublist.map _)

/- The numbers of tensors leave one order only. -/
theorem Sound.leavingOrder_unique
    {order' : List Resident}
    (hSound : m.Sound pins)
    (hOrder : m.LeavingOrder order)
    (hOrder' : m.LeavingOrder order') :
    order = order' := by
  refine List.Perm.eq_of_pairwise ?_ hOrder.sorted hOrder'.sorted
    (hOrder.perm.trans hOrder'.perm.symm)
  intro r s hR hS hFirst hSecond
  have hIndex : r.tensor.index = s.tensor.index := by
    unfold LeavesFirst at hFirst hSecond
    omega
  have hTensor : r.tensor = s.tensor := by
    rw [TensorId.mk.injEq]
    exact hIndex
  exact hSound.eq_of_tensor (mem_evictables.mp (hOrder.perm.mem_iff.mp hR)).1
    (mem_evictables.mp (hOrder'.perm.mem_iff.mp hS)).1 hTensor

------------------------------------------------------------
-- Room
------------------------------------------------------------

/- The tensors on the chip without some of them. -/
def without
    (residents : List Resident)
    (gone : List TensorId) : List Resident :=
  residents.filter (fun r => r.tensor ∉ gone)

/- A layout has a place once some tensors have left. -/
def RoomWithout
    (m : Memory)
    (kind : MemoryKind)
    (size alignment : Nat)
    (gone : List TensorId) : Prop :=
  HasPlace (m.capacity kind) (regions (without m.residents gone) kind)
    size alignment

instance
    (m : Memory)
    (kind : MemoryKind)
    (size alignment : Nat)
    (gone : List TensorId) :
    Decidable (m.RoomWithout kind size alignment gone) := by
  unfold RoomWithout
  infer_instance

section Room

variable {kind : MemoryKind} {size alignment : Nat}
variable {gone gone' : List TensorId}

theorem mem_regions_without
    {region : Region} :
    region ∈ regions (without m.residents gone) kind ↔
      ∃ r ∈ m.residents, r.tensor ∉ gone ∧ r.binding.kind = kind ∧
        r.binding.region = region := by
  simp only [mem_regions, without, List.mem_filter, decide_eq_true_eq,
    and_assoc]

/- More room is left if more tensors leave. -/
theorem RoomWithout.mono
    (hRoom : m.RoomWithout kind size alignment gone)
    (hMore : ∀ t ∈ gone, t ∈ gone') :
    m.RoomWithout kind size alignment gone' := by
  refine HasPlace.mono hRoom ?_
  intro region hMem
  rcases mem_regions_without.mp hMem with ⟨r, hR, hStays, hKind, hSame⟩
  exact mem_regions_without.mpr
    ⟨r, hR, fun hGone => hStays (hMore _ hGone), hKind, hSame⟩

end Room

------------------------------------------------------------
-- Victims
------------------------------------------------------------

section Victims

variable {size alignment : Nat} {l : FreeList} {taken : List Region}

/- The first candidate is enough if the others and the rest leave room. -/
theorem victimsFrom?_cons
    {r : Resident}
    (hShares : l.Shares (r.binding.region :: taken))
    (hUnwrapped : Count.Unwrapped l.capacity alignment)
    (hPos : 0 < l.capacity)
    (hSize : 0 < size)
    (rs : List Resident) :
    ∃ l', l'.Shares taken ∧ l'.capacity = l.capacity ∧
      victimsFrom? size alignment l (r :: rs) =
        if HasPlace l.capacity taken size alignment then some [r.tensor]
        else (victimsFrom? size alignment l' rs).map (r.tensor :: ·) := by
  rcases hShares.release with ⟨l', hRelease, hShares'⟩
  have hCapacity : l'.capacity = l.capacity := by
    simp only [FreeList.release?] at hRelease
    split at hRelease
    case isTrue => cases hRelease
    case isFalse =>
      cases hRelease
      rfl
  have hRoom :
      (l'.bestFit size alignment).isSome = true ↔
        HasPlace l.capacity taken size alignment := by
    rw [← hCapacity] at hUnwrapped hPos ⊢
    exact hShares'.bestFit_isSome_iff hUnwrapped hPos hSize
  refine ⟨l', hShares', hCapacity, ?_⟩
  simp only [victimsFrom?, hRelease, Option.getD_some, hRoom]

/- Victims are the first candidates that leave enough room. -/
theorem victimsFrom?_eq_some
    {rs : List Resident}
    {victims : List TensorId}
    (hShares : l.Shares (rs.map (·.binding.region) ++ taken))
    (hUnwrapped : Count.Unwrapped l.capacity alignment)
    (hPos : 0 < l.capacity)
    (hSize : 0 < size)
    (hVictims : victimsFrom? size alignment l rs = some victims) :
    ∃ k, victims = (rs.take k).map Resident.tensor ∧
      HasPlace l.capacity ((rs.drop k).map (·.binding.region) ++ taken)
        size alignment ∧
      ∀ j, 0 < j → j < k →
        ¬ HasPlace l.capacity
          ((rs.drop j).map (·.binding.region) ++ taken) size alignment := by
  induction rs generalizing l victims with
  | nil => cases hVictims
  | cons r rs ih =>
      rcases victimsFrom?_cons hShares hUnwrapped hPos hSize rs with
        ⟨l', hShares', hCapacity, hStep⟩
      rw [hStep] at hVictims
      split at hVictims
      case isTrue hFits =>
        cases hVictims
        exact ⟨1, rfl, hFits, by omega⟩
      case isFalse hTight =>
        rcases Option.map_eq_some_iff.mp hVictims with ⟨later, hLater, rfl⟩
        rcases ih hShares' (hCapacity ▸ hUnwrapped) (by omega) hLater with
          ⟨k, rfl, hEnough, hFewer⟩
        rw [hCapacity] at hEnough hFewer
        refine ⟨k + 1, rfl, hEnough, ?_⟩
        intro j hJ hBelow
        -- One victim is too few as well as those before the last one.
        rcases Nat.exists_eq_succ_of_ne_zero (Nat.ne_of_gt hJ) with
          ⟨i, rfl⟩
        rcases Nat.eq_zero_or_pos i with rfl | hI
        · exact hTight
        · exact hFewer i hI (by omega)

/- Without victims no number of candidates leaves enough room. -/
theorem victimsFrom?_eq_none
    {rs : List Resident}
    (hShares : l.Shares (rs.map (·.binding.region) ++ taken))
    (hUnwrapped : Count.Unwrapped l.capacity alignment)
    (hPos : 0 < l.capacity)
    (hSize : 0 < size)
    (hVictims : victimsFrom? size alignment l rs = none)
    (hSome : rs ≠ []) :
    ¬ HasPlace l.capacity taken size alignment := by
  induction rs generalizing l with
  | nil => exact absurd rfl hSome
  | cons r rs ih =>
      rcases victimsFrom?_cons hShares hUnwrapped hPos hSize rs with
        ⟨l', hShares', hCapacity, hStep⟩
      rw [hStep] at hVictims
      split at hVictims
      case isTrue => cases hVictims
      case isFalse hTight =>
        cases rs with
        | nil => exact hTight
        | cons s rs =>
            rw [← hCapacity]
            exact ih hShares' (hCapacity ▸ hUnwrapped) (by omega)
              (Option.map_eq_none_iff.mp hVictims) (by simp)

end Victims

/- The regions of the tensors of the scratchpad that are pinned. -/
def pinnedRegions (m : Memory) : List Region :=
  regions (m.residents.filter (fun r => r.pins ≠ 0)) .scratchpad

section

variable (hSound : m.Sound pins) (hOrder : m.LeavingOrder order)
include hSound hOrder

theorem Sound.shares_order :
    m.scratchpad.Shares
      (order.map (·.binding.region) ++ m.pinnedRegions) := by
  refine (hSound.shares .scratchpad).perm ?_
  have hSplit := List.filter_append_perm (fun r => decide (r.pins = 0))
    (m.residents.filter (fun r => r.binding.kind = .scratchpad))
  have hUnpinned :
      (m.residents.filter
        (fun r => r.binding.kind = .scratchpad)).filter
          (fun r => r.pins = 0) = m.evictables := by
    rw [evictables, List.filter_filter]
    congr 1
    funext r
    simp [Bool.and_comm]
  have hPinned :
      (m.residents.filter
        (fun r => r.binding.kind = .scratchpad)).filter
          (fun r => !decide (r.pins = 0)) =
        (m.residents.filter (fun r => r.pins ≠ 0)).filter
          (fun r => r.binding.kind = .scratchpad) := by
    rw [List.filter_filter, List.filter_filter]
    congr 1
    funext r
    simp [Bool.and_comm]
  rw [hUnpinned, hPinned] at hSplit
  have hRegions := (hSplit.map (·.binding.region)).symm
  rw [List.map_append] at hRegions
  exact hRegions.trans
    ((hOrder.perm.map (·.binding.region)).symm.append_right _)

/-
  Without the first tensors of the order, the later ones and the
  pinned ones are left.
-/
theorem Sound.mem_regions_take
    (k : Nat)
    (region : Region) :
    region ∈ regions
        (without m.residents ((order.take k).map Resident.tensor))
        .scratchpad ↔
      region ∈ (order.drop k).map (·.binding.region) ++ m.pinnedRegions := by
  have hMem : ∀ r, r ∈ order ↔
      r ∈ m.residents ∧ r.binding.kind = .scratchpad ∧ r.pins = 0 :=
    fun r => (hOrder.perm.mem_iff).trans mem_evictables
  rw [mem_regions_without, List.mem_append, List.mem_map, pinnedRegions,
    mem_regions]
  constructor
  · rintro ⟨r, hR, hStays, hKind, rfl⟩
    by_cases hPins : r.pins = 0
    · left
      have hListed := (hMem r).mpr ⟨hR, hKind, hPins⟩
      rw [← List.take_append_drop k order] at hListed
      rcases List.mem_append.mp hListed with hEarly | hLate
      · exact absurd (List.mem_map.mpr ⟨r, hEarly, rfl⟩) hStays
      · exact ⟨r, hLate, rfl⟩
    · exact .inr ⟨r, List.mem_filter.mpr ⟨hR, by simpa using hPins⟩,
        hKind, rfl⟩
  · rintro (⟨r, hLate, rfl⟩ | ⟨r, hFilter, hKind, rfl⟩)
    · rcases (hMem r).mp (List.mem_of_mem_drop hLate) with ⟨hR, hKind, -⟩
      refine ⟨r, hR, ?_, hKind, rfl⟩
      intro hEarly
      have hDistinct := hSound.leavingOrder_distinct hOrder
      rw [← List.take_append_drop k order, List.map_append] at hDistinct
      exact List.disjoint_of_nodup_append hDistinct hEarly
        (List.mem_map.mpr ⟨r, hLate, rfl⟩)
    · rcases List.mem_filter.mp hFilter with ⟨hR, hPinned⟩
      refine ⟨r, hR, ?_, hKind, rfl⟩
      intro hEarly
      rcases List.mem_map.mp hEarly with ⟨s, hS, hTensor⟩
      rcases (hMem s).mp (List.mem_of_mem_take hS) with ⟨hResident, -, hPins⟩
      rw [hSound.eq_of_tensor hResident hR hTensor] at hPins
      simp [hPins] at hPinned

theorem Sound.roomWithout_take_iff
    {size alignment : Nat}
    (k : Nat) :
    m.RoomWithout .scratchpad size alignment
        ((order.take k).map Resident.tensor) ↔
      HasPlace m.scratchpad.capacity
        ((order.drop k).map (·.binding.region) ++ m.pinnedRegions)
        size alignment := by
  have hMem := hSound.mem_regions_take hOrder k
  constructor
  · exact fun hRoom => HasPlace.mono hRoom (fun region => (hMem region).mpr)
  · exact fun hPlace => hPlace.mono (fun region => (hMem region).mp)

end

section Choice

variable {size alignment : Nat}

/- The victims are the shortest start of the order that leaves room. -/
theorem Sound.victims?_eq_some
    {victims : List TensorId}
    (hSound : m.Sound pins)
    (hOrder : m.LeavingOrder order)
    (hUnwrapped : Count.Unwrapped (m.capacity .scratchpad) alignment)
    (hPos : 0 < m.capacity .scratchpad)
    (hSize : 0 < size)
    (hVictims : m.victims? .scratchpad size alignment = some victims) :
    ∃ k, victims = (order.take k).map Resident.tensor ∧
      m.RoomWithout .scratchpad size alignment victims ∧
      ∀ j, 0 < j → j < k →
        ¬ m.RoomWithout .scratchpad size alignment
          ((order.take j).map Resident.tensor) := by
  have hSame :=
    hSound.leavingOrder_unique hOrder m.leavingOrder_candidates
  rcases victimsFrom?_eq_some (hSame ▸ hSound.shares_order hOrder)
      hUnwrapped hPos hSize hVictims with ⟨k, rfl, hEnough, hFewer⟩
  rw [← hSame] at hEnough hFewer ⊢
  refine ⟨k, rfl, (hSound.roomWithout_take_iff hOrder k).mpr hEnough, ?_⟩
  intro j hJ hBelow
  rw [hSound.roomWithout_take_iff hOrder j]
  exact hFewer j hJ hBelow

/- There are victims if it helps that all tensors leave that may. -/
theorem Sound.victims?_eq_none
    (hSound : m.Sound pins)
    (hUnwrapped : Count.Unwrapped (m.capacity .scratchpad) alignment)
    (hPos : 0 < m.capacity .scratchpad)
    (hSize : 0 < size)
    (hCrowded : ¬ m.RoomWithout .scratchpad size alignment [])
    (hVictims : m.victims? .scratchpad size alignment = none) :
    ¬ m.RoomWithout .scratchpad size alignment
      (m.evictables.map Resident.tensor) := by
  have hOrder := m.leavingOrder_candidates
  intro hRoom
  have hAll :
      m.RoomWithout .scratchpad size alignment
        ((m.candidates.take m.candidates.length).map Resident.tensor) := by
    refine hRoom.mono ?_
    intro t hMem
    rw [List.take_length]
    exact (hOrder.perm.map Resident.tensor).mem_iff.mpr hMem
  by_cases hSome : m.candidates = []
  · rw [hSome] at hAll
    exact hCrowded hAll
  · rw [hSound.roomWithout_take_iff hOrder, List.drop_length] at hAll
    exact victimsFrom?_eq_none (hSound.shares_order hOrder) hUnwrapped
      hPos hSize hVictims hSome hAll

/- The order in which the tensors on the chip are listed is no matter. -/
theorem Sound.victims?_perm
    {residents : List Resident}
    (hSound : m.Sound pins)
    (hPerm : residents.Perm m.residents)
    (kind : MemoryKind) :
    { m with residents := residents }.victims? kind size alignment =
      m.victims? kind size alignment := by
  have hOrder :
      m.LeavingOrder { m with residents := residents }.candidates :=
    ⟨(leavingOrder_candidates _).perm.trans (hPerm.filter _),
      (leavingOrder_candidates _).sorted⟩
  cases kind with
  | accumulator => rfl
  | scratchpad =>
      unfold victims?
      rw [hSound.leavingOrder_unique hOrder m.leavingOrder_candidates]

end Choice

------------------------------------------------------------
-- Departures
------------------------------------------------------------

/- Memories that some tensors have left, and no other ones. -/
structure Lacks
    (m : Memory)
    (gone : List TensorId)
    (m' : Memory) : Prop where
  capacity : ∀ kind, m'.capacity kind = m.capacity kind
  open_iff :
    ∀ b, b ∈ m'.history ∧ b.releasedAt = none ↔
      (b ∈ m.history ∧ b.releasedAt = none) ∧ b.tensor ∉ gone

namespace Lacks

variable {m' : Memory} {gone : List TensorId}
variable {t : TensorId}

theorem refl (m : Memory) : m.Lacks [] m :=
  ⟨fun _ => rfl, fun b => by simp⟩

/- Some tensors leave, and then others. -/
theorem trans
    {m'' : Memory}
    {gone' : List TensorId}
    (hFirst : m.Lacks gone m')
    (hSecond : m'.Lacks gone' m'') :
    m.Lacks (gone ++ gone') m'' := by
  constructor
  case capacity =>
    exact fun kind =>
      (hSecond.capacity kind).trans (hFirst.capacity kind)
  case open_iff =>
    intro b
    rw [hSecond.open_iff, hFirst.open_iff, List.mem_append, not_or,
      and_assoc (b := b.tensor ∉ gone)]

/- The binding of one tensor ends. -/
theorem of_close
    {time : Nat}
    {spilled : Bool}
    (hCapacity : ∀ kind, m'.capacity kind = m.capacity kind)
    (hHistory : m'.history = close m.history t time spilled) :
    m.Lacks [t] m' := by
  refine ⟨hCapacity, ?_⟩
  intro b
  rw [hHistory, List.mem_singleton]
  constructor
  · rintro ⟨hMem, hOpen⟩
    rcases (mem_close_open hOpen).mp hMem with ⟨hOld, hOther⟩
    exact ⟨⟨hOld, hOpen⟩, hOther⟩
  · rintro ⟨⟨hOld, hOpen⟩, hOther⟩
    exact ⟨(mem_close_open hOpen).mpr ⟨hOld, hOther⟩, hOpen⟩

/- What may leave and has not left may still do so. -/
theorem evictable
    (hLacks : m.Lacks gone m')
    (hEvictable : m.Evictable pins t)
    (hStays : t ∉ gone) :
    m'.Evictable pins t := by
  rcases hEvictable with ⟨hUnpinned, b, hMem, rfl, hOpen, hKind⟩
  have hStill := (hLacks.open_iff b).mpr ⟨⟨hMem, hOpen⟩, hStays⟩
  exact ⟨hUnpinned, b, hStill.1, rfl, hOpen, hKind⟩

theorem absent
    {pins' : List TensorId}
    (hLacks : m.Lacks gone m')
    (hSound : m.Sound pins)
    (hSound' : m'.Sound pins')
    (hAbsent : ¬ m.IsResident t) :
    ¬ m'.IsResident t := by
  rw [hSound'.isResident_iff]
  rintro ⟨b, hMem, hTensor, hOpen⟩
  have hOld := (hLacks.open_iff b).mp ⟨hMem, hOpen⟩
  exact hAbsent
    (hSound.isResident_iff.mpr ⟨b, hOld.1.1, hTensor, hOpen⟩)

/- What is left takes what the tensors that stayed had. -/
theorem fits
    {kind : MemoryKind}
    {layout : VectorLayout}
    {pins' : List TensorId}
    (hLacks : m.Lacks gone m')
    (hSound : m.Sound pins)
    (hSound' : m'.Sound pins')
    (hPos : 0 < m.capacity kind)
    (hSize : 0 < layout.depth)
    (hRoom : m.RoomWithout kind layout.depth layout.alignment gone) :
    m'.Fits layout kind := by
  have hCapacity := hLacks.capacity kind
  have hPos' : 0 < m'.capacity kind := by
    rw [hCapacity]
    exact hPos
  refine (hSound'.shares kind).bestFit_isSome_of_hasPlace hPos' hSize ?_
  change HasPlace (m'.capacity kind) _ _ _
  rw [hCapacity]
  refine HasPlace.mono hRoom ?_
  intro region hMem
  rcases mem_regions.mp hMem with ⟨r, hR, hKind, rfl⟩
  rcases hSound'.recorded r hR with ⟨hEntry, hOpen⟩
  rcases (hLacks.open_iff r.binding).mp
      ⟨List.mem_of_getElem? hEntry, hOpen⟩ with ⟨⟨hOld, -⟩, hStays⟩
  rcases hSound.exists_resident hOld hOpen with ⟨s, hS, hSame⟩
  refine mem_regions_without.mpr ⟨s, hS, ?_, ?_, ?_⟩
  · rw [Resident.tensor, hSame]
    exact hStays
  · rw [hSame]
    exact hKind
  · rw [hSame]

end Lacks

/- Tensors that may leave can all be released, one after the other. -/
theorem Sound.forM_spill_ensures
    {E : MemoryError → Prop}
    {victims : List TensorId}
    (hSound : m.Sound pins)
    (hDistinct : victims.Nodup)
    (hEvictable : ∀ t ∈ victims, m.Evictable pins t) :
    Ensures (victims.forM (fun t => discard (spill t))) m E
      (fun _ m' => m'.Sound pins ∧ m.Lacks victims m') := by
  refine Ensures.forM_done
    (fun gone m' => m'.Sound pins ∧ m.Lacks gone m')
    ⟨hSound, .refl m⟩ ?_
  rintro gone t rest m₁ rfl ⟨hSound₁, hLacks₁⟩
  have hStays : t ∉ gone := fun hGone =>
    List.disjoint_of_nodup_append hDistinct hGone List.mem_cons_self
  have hLeaves := hEvictable t
    (List.mem_append_right _ List.mem_cons_self)
  refine Ensures.bind
    (spill_ensures hSound₁ (hLacks₁.evictable hLeaves hStays)) ?_
  rintro _ m₂ ⟨hSound₂, hKeeps, hHistory⟩
  exact ⟨hSound₂, hLacks₁.trans (.of_close hKeeps.capacity hHistory)⟩

end Memory

end Systolic
