import Systolic.Proofs.Memory.Sound

/-
  This file proves what the actions on sound memories do. In
  sound memories no action fails but for want of room, as long
  as only tensors that are off the chip are placed, and only
  tensors that are on the chip and not pinned are released.

  Key definitions include:
    * `Binding.opened`
    * `Memory.Keeps`

  Key theorems include:
    * `Memory.allocate_ensures`
    * `Memory.release_ensures`
    * `Memory.pin_ensures`
    * `Memory.unpin_ensures`
    * `Memory.Sound.audit`
-/

namespace Systolic

/- The binding of a tensor that is placed at a position. -/
def Binding.opened
    (t : TensorId)
    (kind : MemoryKind)
    (address size position : Nat) : Binding :=
  { tensor := t, kind, address, size, allocatedAt := position
    releasedAt := none, spilled := false }

namespace Memory

variable {E : MemoryError → Prop} {kind : MemoryKind} {size : Nat}

/- Sums start from the literal zero. -/
attribute [local instance (high)] Zero.ofOfNat0

/- The peak of each memory is no less than what is in use. -/
def Peaked (m : Memory) : Prop :=
  ∀ kind, m.used kind ≤ m.stats.peak kind

/-
  Memories with the capacities and the clock of others, whose
  peaks were raised to what is in use.
-/
structure Keeps (m m' : Memory) : Prop where
  clock : m'.clock = m.clock
  capacity : ∀ kind, m'.capacity kind = m.capacity kind
  peak :
    m.Peaked →
      ∀ kind, m'.stats.peak kind = max (m.stats.peak kind) (m'.used kind)

/- Peaks stay if no more is in use. -/
theorem peak_eq_max
    {m m' : Memory}
    (hPeaked : m.Peaked)
    (hStats : m'.stats.peak kind = m.stats.peak kind)
    (hUsed : m'.used kind ≤ m.used kind) :
    m'.stats.peak kind = max (m.stats.peak kind) (m'.used kind) := by
  have hPeak := hPeaked kind
  omega

variable {m : Memory} {pins : List TensorId} {t : TensorId}

------------------------------------------------------------
-- Placing Tensors
------------------------------------------------------------

/- A tensor is bound to a region that can be reserved. -/
theorem place_ensures
    {address : Nat}
    (hSound : m.Sound pins)
    (hAbsent : ¬ m.IsResident t)
    (hPos : 0 < size)
    (hRefused :
      (m.freeList kind).reserve? { start := address, length := size } = none →
        E (.invariant (.notFree kind { start := address, length := size }))) :
    Ensures (place t kind { start := address, length := size }) m E
      (fun _ m' => m'.Sound pins ∧ m.Keeps m' ∧
        m'.history =
          m.history ++ [.opened t kind address size m.clock]) := by
  unfold Ensures place
  cases hReserve :
      (m.freeList kind).reserve? { start := address, length := size } with
  | none => exact hRefused hReserve
  | some l =>
      rcases FreeList.inside_of_reserve? hReserve with ⟨r, hMem, hInside⟩
      rcases FreeList.reserve?_spec (hSound.lists kind) hPos hReserve with
        ⟨hL, hCapacity, hFree, hExtent⟩
      have hLists :
          ∀ other, (m.setFreeList kind l).freeList other =
            if other = kind then l else m.freeList other :=
        m.freeList_setFreeList kind l
      have hWasFree :
          ∀ a, Region.Has { start := address, length := size } a →
            (m.freeList kind).Free a := by
        intro a hHas
        refine ⟨r, hMem, ?_⟩
        simp only [Region.Inside, Region.Has, Region.stop] at hInside hHas ⊢
        omega
      have hStop : address + size ≤ m.capacity kind := by
        have hEnd := (hSound.lists kind).inside r hMem
        simp only [Region.Inside, Region.stop] at hInside
        unfold capacity
        simp only [Region.stop] at hEnd
        omega
      refine ⟨?_, ⟨?_, ?_, ?_⟩, ?_⟩
      · exact hSound.add (b := .opened t kind address size m.clock) hAbsent rfl
          rfl hPos hStop hWasFree hL hCapacity hFree hExtent
          (fun other => by cases kind <;> cases other <;> rfl) rfl rfl
          (by cases kind <;> rfl)
      · cases kind <;> rfl
      · exact m.capacity_setFreeList hCapacity
      · intro hPeaked other
        -- Only the memory that the tensor is placed in can reach a new peak.
        have hOther := (Nat.max_eq_left (hPeaked other)).symm
        cases kind <;> cases other
        case scratchpad.scratchpad => rfl
        case scratchpad.accumulator => exact hOther
        case accumulator.scratchpad => exact hOther
        case accumulator.accumulator => rfl
      · cases kind <;> rfl

------------------------------------------------------------
-- Victims
------------------------------------------------------------

/- Victims are the first of the candidates. -/
theorem victimsFrom?_isPrefix
    {alignment : Nat}
    {l : FreeList}
    {rs : List Resident}
    {victims : List TensorId}
    (hVictims : victimsFrom? size alignment l rs = some victims) :
    victims <+: rs.map Resident.tensor := by
  induction rs generalizing l victims with
  | nil => cases hVictims
  | cons r rs ih =>
      simp only [victimsFrom?] at hVictims
      split at hVictims
      case isTrue =>
        cases hVictims
        exact ⟨rs.map Resident.tensor, rfl⟩
      case isFalse =>
        rcases Option.map_eq_some_iff.mp hVictims with ⟨later, hLater, rfl⟩
        exact List.prefix_cons_inj r.tensor |>.mpr (ih hLater)

/- A tensor that may leave the scratchpad. -/
def Evictable
    (m : Memory)
    (pins : List TensorId)
    (t : TensorId) : Prop :=
  t ∉ pins ∧
    ∃ b ∈ m.history, b.tensor = t ∧ b.releasedAt = none ∧
      b.kind = .scratchpad

theorem Sound.evictable_of_mem_candidates
    {r : Resident}
    (hSound : m.Sound pins)
    (hMem : r ∈ m.candidates) :
    m.Evictable pins r.tensor := by
  have hFilter := (sortBy_perm leavesBefore _).mem_iff.mp hMem
  rw [List.mem_filter, decide_eq_true_iff] at hFilter
  rcases hFilter with ⟨hResident, hKind, hPins⟩
  rcases hSound.recorded r hResident with ⟨hEntry, hOpen⟩
  refine ⟨?_, r.binding, List.mem_of_getElem? hEntry, rfl, hOpen, hKind⟩
  exact (hSound.pins_eq_zero_iff hResident).mp hPins

/- Victims are different tensors that may leave. -/
theorem Sound.victims?_spec
    {alignment : Nat}
    {victims : List TensorId}
    (hSound : m.Sound pins)
    (hVictims : m.victims? kind size alignment = some victims) :
    victims.Nodup ∧ ∀ t ∈ victims, m.Evictable pins t := by
  cases kind with
  | accumulator => cases hVictims
  | scratchpad =>
      have hPrefix := victimsFrom?_isPrefix hVictims
      have hPerm := (sortBy_perm leavesBefore
        (m.residents.filter
          (fun r => r.binding.kind = .scratchpad ∧ r.pins = 0)))
      have hDistinct : (m.candidates.map Resident.tensor).Nodup := by
        apply (hPerm.map Resident.tensor).nodup_iff.mpr
        exact hSound.distinct.sublist (List.filter_sublist.map _)
      refine ⟨hDistinct.sublist hPrefix.sublist, ?_⟩
      intro t hMem
      rcases List.mem_map.mp (hPrefix.subset hMem) with ⟨r, hR, rfl⟩
      exact hSound.evictable_of_mem_candidates hR

/-
  A tensor is placed, or victims are named, or the memory is too
  small. Only where addresses wrap around is there another error.
-/
theorem allocate_ensures
    {name : String}
    {layout : VectorLayout}
    (hSound : m.Sound pins)
    (hAbsent : ¬ m.IsResident t) :
    Ensures (allocate t name layout kind) m
      (fun e => Count.Unwrapped (m.capacity kind) layout.alignment →
        e = .outOfMemory name kind layout.depth (m.capacity kind))
      (fun result m' =>
        (∃ address, result = .placed address ∧
          m'.Sound pins ∧ m.Keeps m' ∧
          m'.history =
            m.history ++ [.opened t kind address layout.depth m.clock] ∧
          (m.freeList kind).bestFit layout.depth layout.alignment =
            some address) ∨
        ∃ victims, result = .spill kind victims ∧ m' = m ∧
          victims.Nodup ∧ ∀ u ∈ victims, m.Evictable pins u) := by
  unfold Ensures allocate
  simp only [hAbsent, if_false]
  by_cases hSize : layout.depth = 0 ∨ m.capacity kind < layout.depth
  · rw [if_pos hSize]
    exact fun _ => rfl
  rw [if_neg hSize]
  cases hFit : (m.freeList kind).bestFit layout.depth layout.alignment with
  | some address =>
      have hPlace := place_ensures
        (E := fun e => Count.Unwrapped (m.capacity kind) layout.alignment →
          e = .outOfMemory name kind layout.depth (m.capacity kind))
        hSound hAbsent (by omega) (fun hNone hUnwrapped =>
          absurd hNone ((hSound.lists kind).reserve?_bestFit hUnwrapped hFit))
      unfold Ensures at hPlace
      simp only
      cases hRun :
          place t kind { start := address, length := layout.depth } m with
      | ok u m' =>
          rw [hRun] at hPlace
          rcases hPlace with ⟨hSound', hKeeps, hHistory⟩
          exact .inl ⟨address, rfl, hSound', hKeeps, hHistory, rfl⟩
      | error e m' =>
          rw [hRun] at hPlace
          exact hPlace
  | none =>
      cases hVictims :
          m.victims? kind layout.depth layout.alignment with
      | none => exact fun _ => rfl
      | some victims =>
          exact .inr ⟨victims, rfl, rfl, hSound.victims?_spec hVictims⟩

------------------------------------------------------------
-- Releasing Tensors
------------------------------------------------------------

/- The memories that the release of a tensor leaves. -/
theorem release_of_unpinned
    {r : Resident}
    {l : FreeList}
    (spilled : Bool)
    (hFind : m.resident? t = some r)
    (hPins : r.pins = 0)
    (hRelease :
      (m.freeList r.binding.kind).release? r.binding.region = some l) :
    release t spilled m =
      .ok { r.binding with releasedAt := some m.clock, spilled }
        (setFreeList
          { m.forget t with
            history := m.history.set r.entry
              { r.binding with releasedAt := some m.clock, spilled } }
          r.binding.kind l) := by
  let b : Binding :=
    { r.binding with releasedAt := some m.clock, spilled }
  have hAgain :
      (freeList { m.forget t with history := m.history.set r.entry b }
        r.binding.kind).release? r.binding.region = some l := by
    rw [← hRelease]
    cases r.binding.kind <;> rfl
  unfold release
  rw [hFind]
  simp only [hPins, ne_eq, not_true_eq_false, if_false]
  split
  case h_1 hNone => cases hAgain.symm.trans hNone
  case h_2 l' hSome =>
    cases hAgain.symm.trans hSome
    rfl

/- The memories with one more eviction, if there was one. -/
def tally
    (m : Memory)
    (spilled : Bool) : Memory :=
  { m with
    stats := { m.stats with spills := m.stats.spills + spilled.toNat } }

/-
  A tensor on the chip is released if it is not pinned. An
  eviction has yet to be counted.
-/
theorem release_ensures
    (spilled : Bool)
    (hSound : m.Sound pins)
    (hResident : m.IsResident t)
    (hUnpinned : t ∉ pins) :
    Ensures (release t spilled) m E
      (fun _ m' => (m'.tally spilled).Sound pins ∧ m.Keeps m' ∧
        m'.history = close m.history t m.clock spilled) := by
  rcases Option.isSome_iff_exists.mp hResident with ⟨r, hFind⟩
  rcases hSound.resident?_eq_some.mp hFind with ⟨hMem, rfl⟩
  have hPins : r.pins = 0 := (hSound.pins_eq_zero_iff hMem).mpr hUnpinned
  rcases FreeList.release?_spec (hSound.lists r.binding.kind)
      (hSound.resident_inside hMem).1 (hSound.resident_inside hMem).2
      (hSound.taken r hMem) with
    ⟨l, hRelease, hL, hCapacity, hFree, hExtent⟩
  -- The memories just before the region is given back.
  let b : Binding :=
    { r.binding with releasedAt := some m.clock, spilled }
  let m₁ : Memory :=
    { m.forget r.tensor with history := m.history.set r.entry b }
  have hSame : m₁.freeList r.binding.kind = m.freeList r.binding.kind := by
    cases r.binding.kind <;> rfl
  have hRun :
      release r.tensor spilled m =
        .ok b (m₁.setFreeList r.binding.kind l) :=
    release_of_unpinned spilled hFind hPins hRelease
  have hHistory :
      (m₁.setFreeList r.binding.kind l).history =
        close m.history r.tensor m.clock spilled := by
    rw [← hSound.set_eq_close hMem]
    cases r.binding.kind <;> rfl
  have hRoom : l.capacity = m₁.capacity r.binding.kind := by
    rw [capacity, hSame]
    exact hCapacity
  have hUsed :
      ∀ other, (m₁.setFreeList r.binding.kind l).used other ≤
        m.used other := by
    intro other
    unfold used
    rw [freeList_setFreeList]
    split
    case isTrue hSame' =>
      rw [hSame', FreeList.used, FreeList.used, hCapacity]
      unfold extent at hExtent
      omega
    case isFalse => cases other <;> exact Nat.le_refl _
  unfold Ensures
  rw [hRun]
  refine ⟨?_, ⟨?_, ?_, ?_⟩, hHistory⟩
  · refine hSound.remove hMem hUnpinned hL hCapacity hFree hExtent ?_ ?_
      hHistory ?_
    · intro other
      change (m₁.setFreeList r.binding.kind l).freeList other = _
      rw [freeList_setFreeList]
      cases other <;> rfl
    · cases r.binding.kind <;> rfl
    · cases r.binding.kind <;> rfl
  · cases r.binding.kind <;> rfl
  · intro other
    rw [m₁.capacity_setFreeList hRoom]
    cases other <;> rfl
  · intro hPeaked other
    refine peak_eq_max hPeaked ?_ (hUsed other)
    cases r.binding.kind <;> rfl

/- A tensor of the scratchpad leaves if it is not pinned. -/
theorem spill_ensures
    (hSound : m.Sound pins)
    (hEvictable : m.Evictable pins t) :
    Ensures (spill t) m E
      (fun _ m' => m'.Sound pins ∧ m.Keeps m' ∧
        m'.history = close m.history t m.clock true) := by
  rcases hEvictable with ⟨hUnpinned, b, hMem, hTensor, hOpen, hKind⟩
  have hResident : m.IsResident t :=
    hSound.isResident_iff.mpr ⟨b, hMem, hTensor, hOpen⟩
  have hBinding : m.binding? t = some b :=
    hSound.binding?_eq_some.mpr ⟨hMem, hTensor, hOpen⟩
  have hRelease := release_ensures (E := E) true hSound hResident hUnpinned
  unfold Ensures at hRelease ⊢
  unfold spill
  rw [hBinding, Option.any_some, hKind, if_neg (by decide)]
  cases hRun : release t true m with
  | error e m' =>
      rw [hRun] at hRelease
      exact hRelease
  | ok c m' =>
      rw [hRun] at hRelease
      rcases hRelease with ⟨hSound', hKeeps, hHistory⟩
      exact ⟨hSound', ⟨hKeeps.clock, hKeeps.capacity, hKeeps.peak⟩,
        hHistory⟩

------------------------------------------------------------
-- Pins and Next Uses
------------------------------------------------------------

/- The pins of one tensor on the chip are counted anew. -/
theorem Sound.repin
    {pins' : List TensorId}
    (hSound : m.Sound pins)
    (hResident : m.IsResident t)
    (f : UInt32 → UInt32)
    (hCount : ∀ n, n.toNat = pins.count t → (f n).toNat = pins'.count t)
    (hOthers : ∀ u, u ≠ t → pins'.count u = pins.count u) :
    let m' := m.modifyResident t (fun r => { r with pins := f r.pins })
    m'.Sound pins' ∧ m.Keeps m' ∧ m'.history = m.history := by
  refine ⟨?_, ⟨rfl, fun _ => rfl, ?_⟩, rfl⟩
  case refine_2 =>
    exact fun hPeaked _ => peak_eq_max hPeaked rfl (Nat.le_refl _)
  apply hSound.map
  · intro r
    split <;> rfl
  · intro r
    split <;> rfl
  · intro r hMem
    have hOld := hSound.pinned r hMem
    split
    case isTrue hSame =>
      rw [hSame] at hOld ⊢
      exact hCount _ hOld
    case isFalse hOther =>
      rw [hOthers _ hOther]
      exact hOld
  · intro u hPin
    by_cases hSame : u = t
    · exact hSame ▸ hResident
    · rw [← List.count_pos_iff, hOthers u hSame,
        List.count_pos_iff] at hPin
      exact hSound.kept u hPin

/- A tensor on the chip is pinned once more, if that can be counted. -/
theorem pin_ensures
    (hSound : m.Sound pins)
    (hResident : m.IsResident t)
    (hCounted : (t :: pins).count t < UInt32.size) :
    Ensures (pin t) m E
      (fun _ m' => m'.Sound (t :: pins) ∧ m.Keeps m' ∧
        m'.history = m.history) := by
  unfold Ensures pin
  rw [if_pos hResident]
  refine hSound.repin hResident (· + 1) ?_ ?_
  · intro n hOld
    rw [List.count_cons_self] at hCounted ⊢
    rw [UInt32.toNat_add, hOld]
    exact Nat.mod_eq_of_lt hCounted
  · exact fun u hOther => List.count_cons_of_ne (Ne.symm hOther)

/- One pin of a tensor is taken back. -/
theorem unpin_ensures
    (hSound : m.Sound (t :: pins)) :
    Ensures (unpin t) m E
      (fun _ m' => m'.Sound pins ∧ m.Keeps m' ∧
        m'.history = m.history) := by
  have hResident : m.IsResident t := hSound.kept t List.mem_cons_self
  rcases Option.isSome_iff_exists.mp hResident with ⟨r, hFind⟩
  rcases hSound.resident?_eq_some.mp hFind with ⟨hMem, hTensor⟩
  have hAny : (m.resident? t).any (fun r => 0 < r.pins) = true := by
    have hPins := hSound.pinned r hMem
    rw [hTensor, List.count_cons_self] at hPins
    rw [hFind, Option.any_some, decide_eq_true_eq, UInt32.lt_iff_toNat_lt,
      hPins]
    exact Nat.succ_pos _
  unfold Ensures unpin
  rw [if_pos hAny]
  refine hSound.repin hResident (· - 1) ?_ ?_
  · intro n hOld
    rw [List.count_cons_self] at hOld
    have hPos : 1 ≤ n := by
      rw [UInt32.le_iff_toNat_le, hOld]
      exact Nat.succ_pos _
    rw [UInt32.toNat_sub_of_le _ _ hPos, hOld]
    rfl
  · exact fun u hOther => (List.count_cons_of_ne (Ne.symm hOther)).symm

theorem Sound.setNextUse
    (hSound : m.Sound pins)
    (nextUse : Option Nat) :
    (m.setNextUse t nextUse).Sound pins := by
  apply hSound.map
  · intro r
    split <;> rfl
  · intro r
    split <;> rfl
  · intro r hMem
    rw [← hSound.pinned r hMem]
    split <;> rfl
  · exact hSound.kept

------------------------------------------------------------
-- Audit
------------------------------------------------------------

theorem firstOverlap?_eq_none
    {bs : List Binding}
    (hApart :
      bs.Pairwise (fun a b => ¬ a.region.Overlaps b.region)) :
    firstOverlap? bs = none := by
  induction bs with
  | nil => rfl
  | cons a bs ih =>
      rcases List.pairwise_cons.mp hApart with ⟨hHead, hTail⟩
      cases bs with
      | nil => rfl
      | cons b bs =>
          unfold firstOverlap?
          rw [if_neg (hHead b List.mem_cons_self)]
          exact ih hTail

/- The present bindings of one memory lie apart. -/
theorem Sound.live_apart
    (hSound : m.Sound pins)
    (kind : MemoryKind) :
    (m.live kind).Pairwise
      (fun a b => ¬ a.region.Overlaps b.region) := by
  have hSymmetric :
      ∀ {a b : Binding}, ¬ a.region.Overlaps b.region →
        ¬ b.region.Overlaps a.region :=
    fun hApart hOverlaps => hApart ⟨hOverlaps.2, hOverlaps.1⟩
  refine ((sortBy_perm _ _).pairwise_iff hSymmetric).mpr ?_
  rw [List.pairwise_filter, List.pairwise_map]
  have hDistinct := List.pairwise_map.mp hSound.distinct
  refine hDistinct.imp_of_mem ?_
  intro r s hR hS hNe hKind hKind'
  apply hSound.apart r hR s hS hNe
  rw [of_decide_eq_true hKind, of_decide_eq_true hKind']

/- The present bindings of one memory are all that is in use. -/
theorem Sound.sum_live
    (hSound : m.Sound pins)
    (kind : MemoryKind) :
    ((m.live kind).map (·.size)).sum = m.used kind := by
  have hSum :
      ((m.live kind).map (·.size)).sum = held m.residents kind := by
    have hPerm := sortBy_perm (fun a b : Binding => a.address ≤ b.address)
      ((m.residents.map (·.binding)).filter (fun b => b.kind = kind))
    rw [live, (hPerm.map _).sum_nat, List.filter_map, List.map_map]
    rfl
  have hCount := hSound.counted kind
  unfold used FreeList.used
  unfold capacity extent at hCount
  omega

/- Sound memories pass their audit. -/
theorem Sound.audit
    (hSound : m.Sound pins) :
    m.audit = .ok () := by
  have hFault : ∀ kind, m.kindFault? kind = none := by
    intro kind
    simp only [kindFault?, firstOverlap?_eq_none (hSound.live_apart kind),
      hSound.sum_live kind, if_true]
  have hNone : MemoryKind.all.findSome? m.kindFault? = none := by
    rw [List.findSome?_eq_none_iff]
    intro kind _
    exact hFault kind
  rw [Memory.audit, hNone]

end Memory

end Systolic
