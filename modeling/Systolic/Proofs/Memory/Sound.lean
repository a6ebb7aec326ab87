import Mathlib.Data.List.Nodup
import Systolic.Proofs.Effect.Ensures
import Systolic.Proofs.Memory.FreeList
import Systolic.Memory.Basic

/-
  This file proves that the memories on the chip stay sound: the
  tensors on the chip lie apart and outside the free regions, the
  history has an open entry for each of them and for no other
  tensor, and pins are counted.

  Key definitions include:
    * `close`
    * `Memory.Sound`

  Key theorems include:
    * `Memory.Sound.binding?_eq_some`
    * `Memory.Sound.add`
    * `Memory.Sound.remove`
    * `Memory.Sound.map`
-/

namespace Systolic

------------------------------------------------------------
-- Sorted Lists
------------------------------------------------------------

section Sorting

variable {α : Type}

theorem insertSorted_perm
    (precedes : α → α → Bool)
    (a : α)
    (l : List α) :
    (insertSorted precedes a l).Perm (a :: l) := by
  induction l with
  | nil => exact .refl _
  | cons b l ih =>
      unfold insertSorted
      split
      case isTrue => exact .refl _
      case isFalse => exact (ih.cons b).trans (.swap a b l)

theorem sortBy_perm
    (precedes : α → α → Bool)
    (l : List α) :
    (sortBy precedes l).Perm l := by
  induction l with
  | nil => exact .refl _
  | cons a l ih =>
      exact (insertSorted_perm precedes a _).trans (ih.cons a)

end Sorting

------------------------------------------------------------
-- Histories
------------------------------------------------------------

/- A history after the present binding of a tensor was released. -/
def close
    (history : List Binding)
    (t : TensorId)
    (time : Nat)
    (spilled : Bool) : List Binding :=
  history.map (fun b =>
    if b.tensor = t ∧ b.releasedAt = none then
      { b with releasedAt := some time, spilled }
    else b)

theorem mem_close
    {history : List Binding}
    {t : TensorId}
    {time : Nat}
    {spilled : Bool}
    {b : Binding} :
    b ∈ close history t time spilled ↔
      (b ∈ history ∧ ¬ (b.tensor = t ∧ b.releasedAt = none)) ∨
      ∃ c ∈ history, c.tensor = t ∧ c.releasedAt = none ∧
        b = { c with releasedAt := some time, spilled } := by
  unfold close
  rw [List.mem_map]
  constructor
  · intro hMem
    rcases hMem with ⟨c, hC, rfl⟩
    split
    case isTrue hOpen => exact .inr ⟨c, hC, hOpen.1, hOpen.2, rfl⟩
    case isFalse hOther => exact .inl ⟨hC, hOther⟩
  · intro hCases
    rcases hCases with ⟨hMem, hOther⟩ | ⟨c, hC, hTensor, hOpen, rfl⟩
    · exact ⟨b, hMem, if_neg hOther⟩
    · exact ⟨c, hC, if_pos ⟨hTensor, hOpen⟩⟩

/- What is open after a release was open before and is another tensor. -/
theorem mem_close_open
    {history : List Binding}
    {t : TensorId}
    {time : Nat}
    {spilled : Bool}
    {b : Binding}
    (hOpen : b.releasedAt = none) :
    b ∈ close history t time spilled ↔ b ∈ history ∧ b.tensor ≠ t := by
  rw [mem_close]
  constructor
  · intro hCases
    rcases hCases with ⟨hMem, hOther⟩ | ⟨c, -, -, -, rfl⟩
    · exact ⟨hMem, fun hTensor => hOther ⟨hTensor, hOpen⟩⟩
    · cases hOpen
  · intro hMem
    exact .inl ⟨hMem.1, fun hBoth => hMem.2 hBoth.1⟩

------------------------------------------------------------
-- Sound Memories
------------------------------------------------------------

/- Two regions with an address in common overlap. -/
theorem Region.overlaps_of_has
    {r s : Region}
    {a : Nat}
    (hR : r.Has a)
    (hS : s.Has a) :
    r.Overlaps s := by
  unfold Has at hR hS
  unfold Overlaps
  omega

theorem Region.exists_has_of_overlaps
    {r s : Region}
    (hR : 0 < r.length)
    (hS : 0 < s.length)
    (hOverlaps : r.Overlaps s) :
    ∃ a, r.Has a ∧ s.Has a := by
  refine ⟨max r.start s.start, ?_, ?_⟩ <;>
    simp only [Overlaps, Has, stop] at *
  · omega
  · omega

namespace Memory

/- Sums start from the literal zero. -/
attribute [local instance (high)] Zero.ofOfNat0

theorem isResident_iff_mem
    {m : Memory}
    {t : TensorId} :
    m.IsResident t ↔ ∃ r ∈ m.residents, r.tensor = t := by
  simp [IsResident, resident?, List.find?_isSome]

theorem of_resident?
    {m : Memory}
    {t : TensorId}
    {r : Resident}
    (hFind : m.resident? t = some r) :
    r ∈ m.residents ∧ r.tensor = t := by
  have hTensor := List.find?_some hFind
  exact ⟨List.mem_of_find?_eq_some hFind, of_decide_eq_true hTensor⟩

/- The vectors that tensors hold in one memory. -/
def held
    (residents : List Resident)
    (kind : MemoryKind) : Nat :=
  ((residents.filter (fun r => r.binding.kind = kind)).map
    (·.binding.size)).sum

/-
  What holds of the memories while the tensors of a list are
  pinned, as often as they are in it.
-/
structure Sound
    (m : Memory)
    (pins : List TensorId) : Prop where
  lists : ∀ kind, (m.freeList kind).Sound
  distinct : (m.residents.map Resident.tensor).Nodup
  recorded :
    ∀ r ∈ m.residents,
      m.history[r.entry]? = some r.binding ∧ r.binding.releasedAt = none
  present :
    ∀ i b, m.history[i]? = some b → b.releasedAt = none →
      ∃ r ∈ m.residents, r.entry = i
  inside :
    ∀ b ∈ m.history,
      0 < b.size ∧ b.region.stop ≤ m.capacity b.kind
  apart :
    ∀ r ∈ m.residents, ∀ s ∈ m.residents,
      r.tensor ≠ s.tensor → r.binding.kind = s.binding.kind →
        ¬ r.binding.region.Overlaps s.binding.region
  taken :
    ∀ r ∈ m.residents, ∀ a,
      r.binding.region.Has a → ¬ (m.freeList r.binding.kind).Free a
  counted :
    ∀ kind,
      extent (m.freeList kind).regions + held m.residents kind =
        m.capacity kind
  pinned : ∀ r ∈ m.residents, r.pins.toNat = pins.count r.tensor
  kept : ∀ t ∈ pins, m.IsResident t
  unspilled :
    ∀ b ∈ m.history, b.releasedAt = none → b.spilled = false
  tallied : m.stats.spills = m.history.countP (·.spilled)

namespace Sound

variable {m : Memory} {pins : List TensorId}
variable {r : Resident} {t : TensorId} {b : Binding}

section

variable (hSound : m.Sound pins)
include hSound

theorem eq_of_tensor
    {s : Resident}
    (hR : r ∈ m.residents)
    (hS : s ∈ m.residents)
    (hTensor : r.tensor = s.tensor) :
    r = s :=
  List.inj_on_of_nodup_map hSound.distinct hR hS hTensor

theorem resident_inside
    (hMem : r ∈ m.residents) :
    0 < r.binding.size ∧
      r.binding.region.stop ≤ m.capacity r.binding.kind :=
  hSound.inside r.binding
    (List.mem_of_getElem? (hSound.recorded r hMem).1)

theorem resident?_eq_some :
    m.resident? t = some r ↔ r ∈ m.residents ∧ r.tensor = t := by
  constructor
  · intro hFind
    exact of_resident? hFind
  · intro hMem
    rcases hMem with ⟨hMem, rfl⟩
    unfold resident?
    cases hFind : m.residents.find? (fun s => s.tensor = r.tensor) with
    | none =>
        have hNone := List.find?_eq_none.mp hFind r hMem
        simp at hNone
    | some s =>
        have hTensor := List.find?_some hFind
        have hS := List.mem_of_find?_eq_some hFind
        rw [hSound.eq_of_tensor hS hMem (of_decide_eq_true hTensor)]

/- The present binding of a tensor is its open entry in the history. -/
theorem binding?_eq_some :
    m.binding? t = some b ↔
      b ∈ m.history ∧ b.tensor = t ∧ b.releasedAt = none := by
  unfold binding?
  rw [Option.map_eq_some_iff]
  constructor
  · intro hResident
    rcases hResident with ⟨r, hFind, rfl⟩
    rcases hSound.resident?_eq_some.mp hFind with ⟨hMem, hTensor⟩
    rcases hSound.recorded r hMem with ⟨hEntry, hOpen⟩
    exact ⟨List.mem_of_getElem? hEntry, hTensor, hOpen⟩
  · intro hBinding
    rcases hBinding with ⟨hMem, hTensor, hOpen⟩
    rcases List.mem_iff_getElem?.mp hMem with ⟨i, hGet⟩
    rcases hSound.present i b hGet hOpen with ⟨r, hR, rfl⟩
    rcases hSound.recorded r hR with ⟨hEntry, -⟩
    have hSame : r.binding = b := Option.some.inj (hEntry.symm.trans hGet)
    have hOwner : r.tensor = t := by
      rw [Resident.tensor, hSame, hTensor]
    exact ⟨r, hSound.resident?_eq_some.mpr ⟨hR, hOwner⟩, hSame⟩

theorem isResident_iff :
    m.IsResident t ↔
      ∃ b ∈ m.history, b.tensor = t ∧ b.releasedAt = none := by
  have hBinding : (m.resident? t).isSome = (m.binding? t).isSome := by
    rw [binding?, Option.isSome_map]
  unfold IsResident
  rw [hBinding, Option.isSome_iff_exists]
  constructor
  · intro hSome
    rcases hSome with ⟨b, hB⟩
    exact ⟨b, hSound.binding?_eq_some.mp hB⟩
  · intro hOpen
    rcases hOpen with ⟨b, hB⟩
    exact ⟨b, hSound.binding?_eq_some.mpr hB⟩

/- A resident of a tensor, by its binding. -/
theorem exists_resident
    (hMem : b ∈ m.history)
    (hOpen : b.releasedAt = none) :
    ∃ r ∈ m.residents, r.binding = b := by
  rcases Option.map_eq_some_iff.mp
      (hSound.binding?_eq_some.mpr ⟨hMem, rfl, hOpen⟩) with
    ⟨r, hFind, hSame⟩
  exact ⟨r, (hSound.resident?_eq_some.mp hFind).1, hSame⟩

/- Present bindings of one memory lie apart. -/
theorem apart_of_open
    {c : Binding}
    (hB : b ∈ m.history)
    (hOpenB : b.releasedAt = none)
    (hC : c ∈ m.history)
    (hOpenC : c.releasedAt = none)
    (hNe : b.tensor ≠ c.tensor)
    (hKind : b.kind = c.kind) :
    ¬ b.region.Overlaps c.region := by
  rcases hSound.exists_resident hB hOpenB with ⟨r, hR, rfl⟩
  rcases hSound.exists_resident hC hOpenC with ⟨s, hS, rfl⟩
  exact hSound.apart r hR s hS hNe hKind

/- A tensor on the chip lies apart from what is free. -/
theorem apart_of_free
    {kind : MemoryKind}
    {region : Region}
    (hMem : r ∈ m.residents)
    (hKind : r.binding.kind = kind)
    (hPos : 0 < region.length)
    (hFree : ∀ a, region.Has a → (m.freeList kind).Free a) :
    ¬ r.binding.region.Overlaps region := by
  intro hOverlaps
  rcases Region.exists_has_of_overlaps (hSound.resident_inside hMem).1
      hPos hOverlaps with
    ⟨a, hHas, hHas'⟩
  apply hSound.taken r hMem a hHas
  rw [hKind]
  exact hFree a hHas'

/- A tensor is not pinned exactly if it is not in the list. -/
theorem pins_eq_zero_iff
    (hMem : r ∈ m.residents) :
    r.pins = 0 ↔ r.tensor ∉ pins := by
  rw [← List.count_eq_zero, ← hSound.pinned r hMem, ← UInt32.toNat_inj]
  rfl

/- Only the counts of pins matter. -/
theorem perm
    {pins' : List TensorId}
    (hPerm : pins.Perm pins') :
    m.Sound pins' :=
  { hSound with
    pinned := by
      intro r hMem
      rw [hSound.pinned r hMem, hPerm.count_eq]
    kept := by
      intro t hMem
      exact hSound.kept t (hPerm.mem_iff.mpr hMem) }

/- The position that new bindings are marked with does not matter. -/
theorem setClock
    (position : Nat) :
    (m.setClock position).Sound pins :=
  { hSound with }

end

end Sound

/- Nothing is wrong in memories without tensors. -/
theorem sound_empty
    (localDepth accumulatorDepth : Nat) :
    (empty localDepth accumulatorDepth).Sound [] := by
  constructor
  case lists =>
    intro kind
    cases kind
    · exact FreeList.sound_full localDepth
    · exact FreeList.sound_full accumulatorDepth
  case counted =>
    intro kind
    cases kind <;>
      simp [empty, freeList, capacity, FreeList.full, held]
  all_goals simp [empty, MemoryStats.zero]

------------------------------------------------------------
-- Free Lists of Memories
------------------------------------------------------------

section Lists

variable (m : Memory)
variable {kind : MemoryKind} {l : FreeList}

theorem freeList_setFreeList
    (kind : MemoryKind)
    (l : FreeList)
    (other : MemoryKind) :
    (m.setFreeList kind l).freeList other =
      if other = kind then l else m.freeList other := by
  cases kind <;> cases other <;> rfl

/- Free regions of the same capacity keep all capacities. -/
theorem capacity_of_freeLists
    {m m' : Memory}
    (hLists :
      ∀ other, m'.freeList other =
        if other = kind then l else m.freeList other)
    (hCapacity : l.capacity = m.capacity kind)
    (other : MemoryKind) :
    m'.capacity other = m.capacity other := by
  unfold capacity
  rw [hLists]
  split
  case isTrue hSame =>
    rw [hSame]
    exact hCapacity
  case isFalse => rfl

theorem capacity_setFreeList
    (hCapacity : l.capacity = m.capacity kind)
    (other : MemoryKind) :
    (m.setFreeList kind l).capacity other = m.capacity other :=
  capacity_of_freeLists (m.freeList_setFreeList kind l) hCapacity other

/- A memory with one other free list that is sound, too. -/
theorem Sound.freeLists
    {m m' : Memory}
    {pins : List TensorId}
    (hSound : m.Sound pins)
    (hLists :
      ∀ other, m'.freeList other =
        if other = kind then l else m.freeList other)
    (hL : l.Sound)
    (other : MemoryKind) :
    (m'.freeList other).Sound := by
  rw [hLists]
  split
  case isTrue => exact hL
  case isFalse => exact hSound.lists other

@[simp] theorem held_append
    (residents : List Resident)
    (r : Resident)
    (kind : MemoryKind) :
    held (residents ++ [r]) kind =
      held residents kind +
        if r.binding.kind = kind then r.binding.size else 0 := by
  unfold held
  rw [List.filter_append, List.map_append, List.sum_append]
  split <;> simp_all

theorem held_perm
    {residents residents' : List Resident}
    (hPerm : residents.Perm residents')
    (kind : MemoryKind) :
    held residents kind = held residents' kind :=
  ((hPerm.filter _).map _).sum_nat

end Lists

------------------------------------------------------------
-- Placing Tensors
------------------------------------------------------------

section Actions

variable {m : Memory} {pins : List TensorId} {t : TensorId}
variable {r : Resident}

/- A new binding that takes its region out of the free ones. -/
theorem Sound.add
    {m' : Memory}
    {b : Binding}
    {l : FreeList}
    (hSound : m.Sound pins)
    (hAbsent : ¬ m.IsResident b.tensor)
    (hOpen : b.releasedAt = none)
    (hUnspilled : b.spilled = false)
    (hPos : 0 < b.size)
    (hInside : b.region.stop ≤ m.capacity b.kind)
    (hWasFree : ∀ a, b.region.Has a → (m.freeList b.kind).Free a)
    (hL : l.Sound)
    (hCapacity : l.capacity = m.capacity b.kind)
    (hFree :
      ∀ a, l.Free a ↔ (m.freeList b.kind).Free a ∧ ¬ b.region.Has a)
    (hExtent :
      extent l.regions + b.size = extent (m.freeList b.kind).regions)
    (hLists :
      ∀ other, m'.freeList other =
        if other = b.kind then l else m.freeList other)
    (hResidents :
      m'.residents = m.residents ++
        [{ binding := b, entry := m.history.length, pins := 0
           nextUse := none }])
    (hHistory : m'.history = m.history ++ [b])
    (hStats : m'.stats.spills = m.stats.spills) :
    m'.Sound pins := by
  have hCapacities := capacity_of_freeLists hLists hCapacity
  have hCases :
      ∀ r ∈ m'.residents, r ∈ m.residents ∨
        (r.binding = b ∧ r.entry = m.history.length ∧ r.pins = 0) := by
    intro r hMem
    rw [hResidents] at hMem
    rcases List.mem_append.mp hMem with hOld | hNew
    · exact .inl hOld
    · rcases List.mem_singleton.mp hNew with rfl
      exact .inr ⟨rfl, rfl, rfl⟩
  constructor
  case lists => exact hSound.freeLists hLists hL
  case distinct =>
    rw [hResidents, List.map_append]
    refine hSound.distinct.append (List.nodup_singleton _) ?_
    intro u hOld hNew
    rcases List.mem_singleton.mp hNew with rfl
    rcases List.mem_map.mp hOld with ⟨r, hMem, hTensor⟩
    exact hAbsent (isResident_iff_mem.mpr ⟨r, hMem, hTensor⟩)
  case recorded =>
    intro r hMem
    rw [hHistory]
    rcases hCases r hMem with hOld | ⟨hBinding, hEntry, -⟩
    · rcases hSound.recorded r hOld with ⟨hGet, hLive⟩
      rw [List.getElem?_append_left (List.getElem?_eq_some_iff.mp hGet).1]
      exact ⟨hGet, hLive⟩
    · rw [hBinding, hEntry]
      exact ⟨List.getElem?_concat_length, hOpen⟩
  case present =>
    intro i c hGet hLive
    rw [hHistory] at hGet
    rw [hResidents]
    by_cases hOld : i < m.history.length
    · rw [List.getElem?_append_left hOld] at hGet
      rcases hSound.present i c hGet hLive with ⟨r, hMem, hEntry⟩
      exact ⟨r, List.mem_append_left _ hMem, hEntry⟩
    · have hBound := (List.getElem?_eq_some_iff.mp hGet).1
      rw [List.length_append, List.length_singleton] at hBound
      exact ⟨_, List.mem_append_right _ (List.mem_singleton.mpr rfl),
        by simp only; omega⟩
  case inside =>
    intro c hMem
    rw [hCapacities]
    rw [hHistory] at hMem
    rcases List.mem_append.mp hMem with hOld | hNew
    · exact hSound.inside c hOld
    · rcases List.mem_singleton.mp hNew with rfl
      exact ⟨hPos, hInside⟩
  case apart =>
    intro r hR q hQ hNe hKind
    rcases hCases r hR with hOldR | ⟨hBindingR, -, -⟩ <;>
      rcases hCases q hQ with hOldQ | ⟨hBindingQ, -, -⟩
    · exact hSound.apart r hOldR q hOldQ hNe hKind
    · rw [hBindingQ] at hKind ⊢
      exact hSound.apart_of_free hOldR hKind hPos hWasFree
    · rw [hBindingR] at hKind ⊢
      intro hOverlaps
      exact hSound.apart_of_free hOldQ hKind.symm hPos hWasFree
        ⟨hOverlaps.2, hOverlaps.1⟩
    · exact absurd (by simp only [Resident.tensor, hBindingR, hBindingQ]) hNe
  case taken =>
    intro r hMem a hHas
    rw [hLists]
    rcases hCases r hMem with hOld | ⟨hBinding, -, -⟩
    · have hTaken := hSound.taken r hOld a hHas
      split
      case isTrue hKind =>
        rw [hFree, ← hKind]
        exact fun hBoth => hTaken hBoth.1
      case isFalse => exact hTaken
    · rw [hBinding] at hHas ⊢
      rw [if_pos rfl, hFree]
      exact fun hBoth => hBoth.2 hHas
  case counted =>
    intro other
    have hCount := hSound.counted other
    rw [hCapacities, hLists, hResidents, held_append]
    by_cases hKind : other = b.kind
    · subst hKind
      simp only [if_true]
      omega
    · simp only [hKind, Ne.symm hKind, if_false, Nat.add_zero]
      exact hCount
  case pinned =>
    intro r hMem
    rcases hCases r hMem with hOld | ⟨hBinding, -, hPins⟩
    · exact hSound.pinned r hOld
    · have hNone : b.tensor ∉ pins := fun hPin => hAbsent (hSound.kept _ hPin)
      rw [hPins, Resident.tensor, hBinding, List.count_eq_zero.mpr hNone]
      rfl
  case kept =>
    intro u hPin
    rcases isResident_iff_mem.mp (hSound.kept u hPin) with ⟨r, hMem, hTensor⟩
    apply isResident_iff_mem.mpr
    rw [hResidents]
    exact ⟨r, List.mem_append_left _ hMem, hTensor⟩
  case unspilled =>
    intro c hMem hLive
    rw [hHistory] at hMem
    rcases List.mem_append.mp hMem with hOld | hNew
    · exact hSound.unspilled c hOld hLive
    · rcases List.mem_singleton.mp hNew with rfl
      exact hUnspilled
  case tallied =>
    rw [hStats, hHistory, List.countP_append, hSound.tallied]
    simp [hUnspilled]

------------------------------------------------------------
-- Removing Tensors
------------------------------------------------------------

/- A resident tensor and all others make up the residents. -/
theorem perm_filter_append
    {residents : List Resident}
    (hDistinct : (residents.map Resident.tensor).Nodup)
    (hMem : r ∈ residents) :
    residents.Perm
      (residents.filter (fun s => s.tensor ≠ r.tensor) ++ [r]) := by
  induction residents with
  | nil => cases hMem
  | cons q qs ih =>
      rw [List.map_cons, List.nodup_cons] at hDistinct
      rcases hDistinct with ⟨hNew, hRest⟩
      rcases List.mem_cons.mp hMem with rfl | hLater
      · have hOthers :
            qs.filter (fun s => s.tensor ≠ r.tensor) = qs := by
          rw [List.filter_eq_self]
          intro s hS
          apply decide_eq_true
          intro hSame
          exact hNew (List.mem_map.mpr ⟨s, hS, hSame⟩)
        rw [List.filter_cons_of_neg (by simp), hOthers]
        exact (List.perm_append_singleton r qs).symm
      · have hOther : q.tensor ≠ r.tensor := by
          intro hSame
          exact hNew (List.mem_map.mpr ⟨r, hLater, hSame.symm⟩)
        rw [List.filter_cons_of_pos (by simpa using hOther)]
        exact (ih hRest hLater).cons q

section

variable (hSound : m.Sound pins) (hMem : r ∈ m.residents)
include hSound hMem

/- The entry of a resident tensor is its only open one. -/
theorem Sound.set_eq_close
    (time : Nat)
    (spilled : Bool) :
    m.history.set r.entry
        { r.binding with releasedAt := some time, spilled } =
      close m.history r.tensor time spilled := by
  rcases hSound.recorded r hMem with ⟨hEntry, hOpen⟩
  apply List.ext_getElem?
  intro i
  rw [close, List.getElem?_map, List.getElem?_set]
  split
  case isTrue hSame =>
    subst hSame
    rw [hEntry, if_pos (List.getElem?_eq_some_iff.mp hEntry).1,
      Option.map_some, if_pos ⟨rfl, hOpen⟩]
  case isFalse hOther =>
    cases hGet : m.history[i]? with
    | none => rfl
    | some b =>
        rw [Option.map_some, if_neg]
        intro hBoth
        rcases hSound.present i b hGet hBoth.2 with ⟨s, hS, rfl⟩
        have hBinding := (hSound.recorded s hS).1.symm.trans hGet
        have hTensor : s.tensor = r.tensor := by
          rw [Resident.tensor, Option.some.inj hBinding, hBoth.1]
        exact hOther (by rw [hSound.eq_of_tensor hS hMem hTensor])

/- A release counts as an eviction if it is marked as one. -/
theorem Sound.countP_close
    (time : Nat)
    (spilled : Bool) :
    (close m.history r.tensor time spilled).countP (·.spilled) =
      m.history.countP (·.spilled) + spilled.toNat := by
  rcases hSound.recorded r hMem with ⟨hEntry, hOpen⟩
  rcases List.getElem?_eq_some_iff.mp hEntry with ⟨hBound, hGet⟩
  have hUnspilled :=
    hSound.unspilled r.binding (List.mem_of_getElem? hEntry) hOpen
  rw [← hSound.set_eq_close hMem, List.countP_set hBound, hGet, hUnspilled]
  cases spilled <;> simp

/- A binding that is closed and gives its region back. -/
theorem Sound.remove
    {m' : Memory}
    {l : FreeList}
    {time : Nat}
    {spilled : Bool}
    (hUnpinned : r.tensor ∉ pins)
    (hL : l.Sound)
    (hCapacity : l.capacity = m.capacity r.binding.kind)
    (hFree :
      ∀ a, l.Free a ↔
        (m.freeList r.binding.kind).Free a ∨ r.binding.region.Has a)
    (hExtent :
      extent l.regions =
        extent (m.freeList r.binding.kind).regions + r.binding.size)
    (hLists :
      ∀ other, m'.freeList other =
        if other = r.binding.kind then l else m.freeList other)
    (hResidents :
      m'.residents = m.residents.filter (fun s => s.tensor ≠ r.tensor))
    (hHistory : m'.history = close m.history r.tensor time spilled)
    (hStats : m'.stats.spills = m.stats.spills + spilled.toNat) :
    m'.Sound pins := by
  have hCapacities := capacity_of_freeLists hLists hCapacity
  have hCases :
      ∀ s, s ∈ m'.residents ↔ s ∈ m.residents ∧ s.tensor ≠ r.tensor := by
    intro s
    rw [hResidents, List.mem_filter, decide_eq_true_iff]
  constructor
  case lists => exact hSound.freeLists hLists hL
  case distinct =>
    rw [hResidents]
    exact hSound.distinct.sublist (List.filter_sublist.map _)
  case recorded =>
    intro s hS
    rcases (hCases s).mp hS with ⟨hOld, hNe⟩
    rcases hSound.recorded s hOld with ⟨hGet, hOpen⟩
    rw [hHistory, close, List.getElem?_map, hGet, Option.map_some,
      if_neg (fun hBoth => hNe hBoth.1)]
    exact ⟨rfl, hOpen⟩
  case present =>
    intro i b hGet hOpen
    rw [hHistory, close, List.getElem?_map] at hGet
    rcases Option.map_eq_some_iff.mp hGet with ⟨c, hC, hChange⟩
    split at hChange
    case isTrue =>
      subst hChange
      cases hOpen
    case isFalse hOther =>
      subst hChange
      rcases hSound.present i c hC hOpen with ⟨s, hS, rfl⟩
      refine ⟨s, (hCases s).mpr ⟨hS, ?_⟩, rfl⟩
      intro hTensor
      have hBinding := (hSound.recorded s hS).1.symm.trans hC
      apply hOther
      rw [← Option.some.inj hBinding]
      exact ⟨hTensor, (hSound.recorded s hS).2⟩
  case inside =>
    intro b hB
    rw [hCapacities]
    rw [hHistory, mem_close] at hB
    rcases hB with ⟨hOld, -⟩ | ⟨c, hC, -, -, rfl⟩
    · exact hSound.inside b hOld
    · exact hSound.inside c hC
  case apart =>
    intro s hS q hQ
    exact hSound.apart s ((hCases s).mp hS).1 q ((hCases q).mp hQ).1
  case taken =>
    intro s hS a hHas
    rcases (hCases s).mp hS with ⟨hOld, hNe⟩
    have hTaken := hSound.taken s hOld a hHas
    rw [hLists]
    split
    case isTrue hKind =>
      rw [hFree, ← hKind]
      intro hEither
      rcases hEither with hWas | hNow
      · exact hTaken hWas
      · exact hSound.apart s hOld r hMem hNe hKind
          (Region.overlaps_of_has hHas hNow)
    case isFalse => exact hTaken
  case counted =>
    intro other
    have hCount := hSound.counted other
    rw [held_perm (perm_filter_append hSound.distinct hMem),
      held_append] at hCount
    rw [hCapacities, hLists, hResidents]
    by_cases hKind : other = r.binding.kind
    · subst hKind
      simp only [if_true] at hCount ⊢
      omega
    · simp only [hKind, Ne.symm hKind, if_false, Nat.add_zero] at hCount ⊢
      exact hCount
  case pinned =>
    intro s hS
    exact hSound.pinned s ((hCases s).mp hS).1
  case kept =>
    intro u hPin
    rcases isResident_iff_mem.mp (hSound.kept u hPin) with ⟨s, hS, rfl⟩
    refine isResident_iff_mem.mpr ⟨s, (hCases s).mpr ⟨hS, ?_⟩, rfl⟩
    intro hSame
    exact hUnpinned (hSame ▸ hPin)
  case unspilled =>
    intro b hB hOpen
    rw [hHistory, mem_close_open hOpen] at hB
    exact hSound.unspilled b hB.1 hOpen
  case tallied =>
    rw [hStats, hHistory, hSound.countP_close hMem, hSound.tallied]

end

/- Residents whose bindings stay, with other pins or next uses. -/
theorem Sound.map
    {pins' : List TensorId}
    {g : Resident → Resident}
    (hSound : m.Sound pins)
    (hBinding : ∀ r, (g r).binding = r.binding)
    (hEntry : ∀ r, (g r).entry = r.entry)
    (hPinned : ∀ r ∈ m.residents, (g r).pins.toNat = pins'.count r.tensor)
    (hKept : ∀ u ∈ pins', m.IsResident u) :
    { m with residents := m.residents.map g }.Sound pins' := by
  have hTensor : ∀ r, (g r).tensor = r.tensor := by
    intro r
    rw [Resident.tensor, hBinding]
    rfl
  constructor
  case lists => exact hSound.lists
  case distinct =>
    have hTensors :
        (m.residents.map g).map Resident.tensor =
          m.residents.map Resident.tensor := by
      rw [List.map_map]
      exact List.map_congr_left (fun r _ => hTensor r)
    rw [hTensors]
    exact hSound.distinct
  case recorded =>
    intro s hS
    rcases List.mem_map.mp hS with ⟨r, hR, rfl⟩
    rw [hBinding, hEntry]
    exact hSound.recorded r hR
  case present =>
    intro i b hGet hOpen
    rcases hSound.present i b hGet hOpen with ⟨r, hR, hI⟩
    exact ⟨g r, List.mem_map.mpr ⟨r, hR, rfl⟩, (hEntry r).trans hI⟩
  case inside => exact hSound.inside
  case apart =>
    intro s hS q hQ
    rcases List.mem_map.mp hS with ⟨r, hR, rfl⟩
    rcases List.mem_map.mp hQ with ⟨r', hR', rfl⟩
    rw [hBinding, hBinding, hTensor, hTensor]
    exact hSound.apart r hR r' hR'
  case taken =>
    intro s hS
    rcases List.mem_map.mp hS with ⟨r, hR, rfl⟩
    rw [hBinding]
    exact hSound.taken r hR
  case counted =>
    intro kind
    have hHeld : held (m.residents.map g) kind = held m.residents kind := by
      simp only [held, List.filter_map, List.map_map, Function.comp_def,
        hBinding]
    rw [hHeld]
    exact hSound.counted kind
  case pinned =>
    intro s hS
    rcases List.mem_map.mp hS with ⟨r, hR, rfl⟩
    rw [hTensor]
    exact hPinned r hR
  case kept =>
    intro u hPin
    rcases isResident_iff_mem.mp (hKept u hPin) with ⟨r, hR, rfl⟩
    exact isResident_iff_mem.mpr
      ⟨g r, List.mem_map.mpr ⟨r, hR, rfl⟩, hTensor r⟩
  case unspilled => exact hSound.unspilled
  case tallied => exact hSound.tallied

end Actions

end Memory

end Systolic
