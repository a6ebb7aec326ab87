import Systolic.Proofs.Memory.Requests

/-
  This file proves which refused requests change the memories on
  the chip. A request to release a pinned tensor is refused, but
  the tensor is forgotten before that. Its region then stays in
  use although no tensor has it: the tensor is stranded. Every
  other refused request changes nothing, and the audit fails
  exactly if a tensor was stranded.

  Key definitions include:
    * `FreeList.Shares`
    * `Memory.refusal?`
    * `Memory.stranded?`
    * `Memory.Accounts`

  Key theorems include:
    * `Memory.serve_of_stranded`
    * `Memory.Accounts.serveAll`
    * `Memory.Accounts.audit_iff`
    * `Memory.refused_unchanged_unless_stranded`
-/

namespace Systolic

------------------------------------------------------------
-- Shares of a Memory
------------------------------------------------------------

theorem extent_eq_zero_iff
    {rs : List Region}
    (hPos : ∀ r ∈ rs, 0 < r.length) :
    extent rs = 0 ↔ rs = [] := by
  cases rs with
  | nil => simp
  | cons r rs =>
      have hFirst := hPos r List.mem_cons_self
      rw [extent_cons]
      simp only [reduceCtorEq, iff_false]
      omega

namespace FreeList

/- Free regions and the regions in use share out a memory. -/
structure Shares
    (l : FreeList)
    (rs : List Region) : Prop where
  sound : l.Sound
  within : ∀ r ∈ rs, 0 < r.length ∧ r.stop ≤ l.capacity
  apart : rs.Pairwise (fun r s => ¬ r.Overlaps s)
  taken : ∀ r ∈ rs, ∀ a, r.Has a → ¬ l.Free a
  counted : extent l.regions + extent rs = l.capacity

theorem shares_full (capacity : Nat) :
    (full capacity).Shares [] := by
  refine ⟨sound_full capacity, by simp, .nil, by simp, ?_⟩
  simp [full]

section Shares

variable {l : FreeList}
variable {rs : List Region}

theorem Shares.perm
    {rs' : List Region}
    (hShares : l.Shares rs)
    (hPerm : rs.Perm rs') :
    l.Shares rs' := by
  have hSymmetric :
      ∀ {r s : Region}, ¬ r.Overlaps s → ¬ s.Overlaps r := by
    intro r s hApart hOverlaps
    exact hApart ⟨hOverlaps.2, hOverlaps.1⟩
  have hExtent : extent rs = extent rs' := (hPerm.map _).sum_nat
  constructor
  case sound => exact hShares.sound
  case within =>
    intro r hMem
    exact hShares.within r (hPerm.mem_iff.mpr hMem)
  case apart => exact (hPerm.pairwise_iff hSymmetric).mp hShares.apart
  case taken =>
    intro r hMem
    exact hShares.taken r (hPerm.mem_iff.mpr hMem)
  case counted =>
    rw [← hExtent]
    exact hShares.counted

/- What is in use is the extent of the regions in use. -/
theorem Shares.used_eq
    (hShares : l.Shares rs) :
    l.used = extent rs := by
  have hCount := hShares.counted
  unfold used
  unfold extent at hCount ⊢
  omega

/- What is reserved is in use. -/
theorem Shares.reserve
    {l' : FreeList}
    {wanted : Region}
    (hShares : l.Shares rs)
    (hPos : 0 < wanted.length)
    (hReserve : l.reserve? wanted = some l') :
    l'.Shares (wanted :: rs) := by
  rcases inside_of_reserve? hReserve with ⟨r, hMem, hInside⟩
  rcases reserve?_spec hShares.sound hPos hReserve with
    ⟨hSound, hCapacity, hFree, hExtent⟩
  have hWasFree : ∀ a, wanted.Has a → l.Free a := by
    intro a hHas
    refine ⟨r, hMem, ?_⟩
    simp only [Region.Inside, Region.Has, Region.stop] at hInside hHas ⊢
    omega
  refine ⟨hSound, ?_, ?_, ?_, ?_⟩
  · rw [hCapacity]
    refine List.forall_mem_cons.mpr ⟨⟨hPos, ?_⟩, hShares.within⟩
    have hStop := hShares.sound.inside r hMem
    simp only [Region.Inside] at hInside
    omega
  · refine List.pairwise_cons.mpr ⟨?_, hShares.apart⟩
    intro s hS hOverlaps
    rcases Region.exists_has_of_overlaps hPos (hShares.within s hS).1 hOverlaps with
      ⟨a, hWanted, hHas⟩
    exact hShares.taken s hS a hHas (hWasFree a hWanted)
  · intro s hS a hHas hStill
    rcases (hFree a).mp hStill with ⟨hWas, hApart⟩
    rcases List.mem_cons.mp hS with rfl | hOld
    · exact hApart hHas
    · exact hShares.taken s hOld a hHas hWas
  · have hCount := hShares.counted
    rw [hCapacity, extent_cons]
    omega

/- A region in use can be given back. -/
theorem Shares.release
    {r : Region}
    (hShares : l.Shares (r :: rs)) :
    ∃ l', l.release? r = some l' ∧ l'.Shares rs := by
  rcases List.forall_mem_cons.mp hShares.within with ⟨hFirst, hRest⟩
  rcases List.pairwise_cons.mp hShares.apart with ⟨hAway, hApart⟩
  rcases release?_spec hShares.sound hFirst.1 hFirst.2
      (hShares.taken r List.mem_cons_self) with
    ⟨l', hRelease, hSound, hCapacity, hFree, hExtent⟩
  refine ⟨l', hRelease, hSound, ?_, hApart, ?_, ?_⟩
  · rw [hCapacity]
    exact hRest
  · intro s hS a hHas hNow
    rcases (hFree a).mp hNow with hWas | hBack
    · exact hShares.taken s (List.mem_cons_of_mem r hS) a hHas hWas
    · exact hAway s hS (Region.overlaps_of_has hBack hHas)
  · have hCount := hShares.counted
    rw [extent_cons] at hCount
    rw [hCapacity]
    omega

end Shares

end FreeList

namespace Memory

/- Sums start from the literal zero. -/
attribute [local instance (high)] Zero.ofOfNat0

------------------------------------------------------------
-- Refusals
------------------------------------------------------------

/- The error of an action that failed. -/
def failure?
    {α : Type} :
    EStateM.Result MemoryError Memory α → Option MemoryError
| .ok _ _ => none
| .error e _ => some e

/- The error with which a request is refused. -/
def refusal?
    (m : Memory) : Request → Option MemoryError
| .allocate t name layout kind => failure? (allocate t name layout kind m)
| .free t => failure? (free t m)
| .spill t => failure? (spill t m)
| .pin t => failure? (pin t m)
| .unpin t => failure? (unpin t m)
| .setNextUse _ _ => none
| .setClock _ => none

/-
  The tensor that a request strands: a pinned one that is to be
  released. In the accumulator memory it can only be freed, since
  a spill from there is refused at once.
-/
def stranded?
    (m : Memory) : Request → Option Resident
| .free t => (m.resident? t).filter (fun r => r.pins ≠ 0)
| .spill t =>
    (m.resident? t).filter
      (fun r => r.pins ≠ 0 ∧ r.binding.kind = .scratchpad)
| _ => none

/- The tensors that several requests strand, one after the other. -/
def strandedAll
    (m : Memory) : List Request → List Resident
| [] => []
| r :: rs => (m.stranded? r).toList ++ (m.serve r).strandedAll rs

variable {m : Memory} {t : TensorId} {r : Resident}

/- The release of a pinned tensor fails after it was forgotten. -/
theorem release_of_pinned
    (spilled : Bool)
    (hFind : m.resident? t = some r)
    (hPinned : r.pins ≠ 0) :
    release t spilled m =
      .error (.invariant (.releasedPinned t)) (m.forget t) := by
  unfold release
  rw [hFind]
  exact if_pos hPinned

/- What a request does that strands a tensor. -/
theorem serve_of_stranded
    {request : Request}
    (hStranded : m.stranded? request = some r) :
    r ∈ m.residents ∧ r.pins ≠ 0 ∧
      m.refusal? request = some (.invariant (.releasedPinned r.tensor)) ∧
      m.serve request = m.forget r.tensor := by
  cases request with
  | free t =>
      rcases Option.filter_eq_some_iff.mp hStranded with ⟨hFind, hPins⟩
      rcases of_resident? hFind with ⟨hMem, rfl⟩
      have hPinned : r.pins ≠ 0 := of_decide_eq_true hPins
      have hRun := release_of_pinned false hFind hPinned
      refine ⟨hMem, hPinned, ?_, ?_⟩
      · change failure? (release r.tensor false m) = _
        rw [hRun]
        rfl
      · change m.leftBy (release r.tensor false) = _
        rw [leftBy, hRun]
  | spill t =>
      rcases Option.filter_eq_some_iff.mp hStranded with ⟨hFind, hCond⟩
      rcases of_resident? hFind with ⟨hMem, rfl⟩
      rcases of_decide_eq_true hCond with ⟨hPinned, hKind⟩
      have hRun :
          spill r.tensor m =
            .error (.invariant (.releasedPinned r.tensor)) (m.forget r.tensor) := by
        unfold spill
        rw [binding?, hFind, Option.map_some, Option.any_some, hKind,
          if_neg (by decide), release_of_pinned true hFind hPinned]
      refine ⟨hMem, hPinned, ?_, ?_⟩
      · rw [refusal?, hRun]
        rfl
      · rw [serve, leftBy, hRun]
  | allocate => cases hStranded
  | pin => cases hStranded
  | unpin => cases hStranded
  | setNextUse => cases hStranded
  | setClock => cases hStranded

------------------------------------------------------------
-- Accounts
------------------------------------------------------------

/- The regions of tensors in one memory. -/
def regions
    (residents : List Resident)
    (kind : MemoryKind) : List Region :=
  (residents.filter (fun r => r.binding.kind = kind)).map
    (·.binding.region)

theorem regions_perm
    {residents residents' : List Resident}
    (hPerm : residents.Perm residents')
    (kind : MemoryKind) :
    (regions residents kind).Perm (regions residents' kind) :=
  (hPerm.filter _).map _

theorem regions_cons_of_eq
    {kind : MemoryKind}
    (hKind : r.binding.kind = kind)
    (residents : List Resident) :
    regions (r :: residents) kind =
      r.binding.region :: regions residents kind := by
  rw [regions, List.filter_cons_of_pos (by simpa using hKind), List.map_cons]
  rfl

theorem regions_cons_of_ne
    {kind : MemoryKind}
    (hKind : r.binding.kind ≠ kind)
    (residents : List Resident) :
    regions (r :: residents) kind = regions residents kind := by
  rw [regions, List.filter_cons_of_neg (by simpa using hKind)]
  rfl

theorem regions_append
    (residents residents' : List Resident)
    (kind : MemoryKind) :
    regions (residents ++ residents') kind =
      regions residents kind ++ regions residents' kind := by
  rw [regions, List.filter_append, List.map_append]
  rfl

/-
  The tensors on the chip are different, and together with the
  stranded ones they have all that is in use.
-/
structure Accounts
    (m : Memory)
    (lost : List Resident) : Prop where
  distinct : (m.residents.map Resident.tensor).Nodup
  shares :
    ∀ kind, (m.freeList kind).Shares (regions (m.residents ++ lost) kind)

theorem accounts_empty
    (localDepth accumulatorDepth : Nat) :
    (empty localDepth accumulatorDepth).Accounts [] := by
  refine ⟨List.nodup_nil, ?_⟩
  intro kind
  cases kind
  · exact FreeList.shares_full localDepth
  · exact FreeList.shares_full accumulatorDepth

section Accounts

variable {lost : List Resident}

section

variable (hAccounts : m.Accounts lost)
include hAccounts

/- The order of tensors in the account does not matter. -/
theorem Accounts.perm
    {m' : Memory}
    {lost' : List Resident}
    (hDistinct : (m'.residents.map Resident.tensor).Nodup)
    (hLists : ∀ kind, m'.freeList kind = m.freeList kind)
    (hPerm : (m.residents ++ lost).Perm (m'.residents ++ lost')) :
    m'.Accounts lost' := by
  refine ⟨hDistinct, ?_⟩
  intro kind
  rw [hLists]
  exact (hAccounts.shares kind).perm (regions_perm hPerm kind)

/- A stranded tensor is still in the account. -/
theorem Accounts.strand
    (hMem : r ∈ m.residents) :
    (m.forget r.tensor).Accounts (r :: lost) := by
  apply hAccounts.perm
  · exact hAccounts.distinct.sublist (List.filter_sublist.map _)
  · intro kind
    cases kind <;> rfl
  · refine ((perm_filter_append hAccounts.distinct hMem).append_right lost).trans ?_
    rw [List.append_assoc]
    rfl

/- Tensors whose bindings stay, with other pins or next uses. -/
theorem Accounts.modifyResident
    {change : Resident → Resident}
    (t : TensorId)
    (hBinding : ∀ r, (change r).binding = r.binding) :
    (m.modifyResident t change).Accounts lost := by
  have hKept :
      ∀ r : Resident,
        (if r.tensor = t then change r else r).binding = r.binding := by
    intro r
    split
    case isTrue => exact hBinding r
    case isFalse => rfl
  constructor
  case distinct =>
    have hTensors :
        (m.modifyResident t change).residents.map Resident.tensor =
          m.residents.map Resident.tensor := by
      rw [Memory.modifyResident, List.map_map]
      apply List.map_congr_left
      intro r _
      exact congrArg Binding.tensor (hKept r)
    rw [hTensors]
    exact hAccounts.distinct
  case shares =>
    intro kind
    have hRegions :
        regions ((m.modifyResident t change).residents ++ lost) kind =
          regions (m.residents ++ lost) kind := by
      rw [regions_append, regions_append]
      simp only [Memory.modifyResident, regions, List.filter_map, List.map_map,
        Function.comp_def, hKept]
    have hList : (m.modifyResident t change).freeList kind = m.freeList kind := by
      cases kind <;> rfl
    rw [hRegions, hList]
    exact hAccounts.shares kind

/- A tensor is added, and its region is taken. -/
theorem Accounts.add
    {m' : Memory}
    {l : FreeList}
    (hAbsent : ¬ m.IsResident r.tensor)
    (hPerm : (r :: m.residents).Perm m'.residents)
    (hLists :
      ∀ other, m'.freeList other =
        if other = r.binding.kind then l else m.freeList other)
    (hShares :
      l.Shares
        (r.binding.region :: regions (m.residents ++ lost) r.binding.kind)) :
    m'.Accounts lost := by
  have hAll : (r :: (m.residents ++ lost)).Perm (m'.residents ++ lost) :=
    hPerm.append_right lost
  constructor
  case distinct =>
    apply (hPerm.map Resident.tensor).nodup_iff.mp
    refine List.nodup_cons.mpr ⟨?_, hAccounts.distinct⟩
    intro hMem
    rcases List.mem_map.mp hMem with ⟨s, hS, hSame⟩
    exact hAbsent (isResident_iff_mem.mpr ⟨s, hS, hSame⟩)
  case shares =>
    intro other
    have hRegions := regions_perm hAll other
    rw [hLists]
    split
    case isTrue hKind =>
      rw [regions_cons_of_eq hKind.symm, hKind] at hRegions
      rw [hKind]
      exact hShares.perm hRegions
    case isFalse hKind =>
      rw [regions_cons_of_ne (Ne.symm hKind)] at hRegions
      exact (hAccounts.shares other).perm hRegions

/- A tensor is removed, and its region is given back. -/
theorem Accounts.remove
    {rest : List Resident}
    (hPerm : m.residents.Perm (r :: rest)) :
    ∃ l, (m.freeList r.binding.kind).release? r.binding.region = some l ∧
      ∀ m' : Memory, m'.residents = rest →
        (∀ other, m'.freeList other =
          if other = r.binding.kind then l else m.freeList other) →
        m'.Accounts lost := by
  have hBefore :
      ∀ kind, (m.freeList kind).Shares (regions (r :: (rest ++ lost)) kind) := by
    intro kind
    exact (hAccounts.shares kind).perm
      (regions_perm (hPerm.append_right lost) kind)
  have hOwn := hBefore r.binding.kind
  rw [regions_cons_of_eq rfl] at hOwn
  rcases hOwn.release with ⟨l, hRelease, hShares⟩
  refine ⟨l, hRelease, ?_⟩
  intro m' hRest hLists
  constructor
  case distinct =>
    rw [hRest]
    have hDistinct := (hPerm.map Resident.tensor).nodup_iff.mp hAccounts.distinct
    exact (List.nodup_cons.mp hDistinct).2
  case shares =>
    intro other
    rw [hRest, hLists]
    split
    case isTrue hKind =>
      rw [hKind]
      exact hShares
    case isFalse hKind =>
      have hOther := hBefore other
      rw [regions_cons_of_ne (Ne.symm hKind)] at hOther
      exact hOther

end

------------------------------------------------------------
-- Actions
------------------------------------------------------------

/-
  An action that keeps the account, and that changes nothing if
  it fails.
-/
def Settles
    {α : Type}
    (m : Memory)
    (lost : List Resident)
    (action : Action α) : Prop :=
  match action m with
  | .ok _ m' => m'.Accounts lost
  | .error _ m' => m' = m

section

variable (hAccounts : m.Accounts lost)
include hAccounts

theorem Settles.leftBy
    {α : Type}
    {action : Action α}
    (hSettles : m.Settles lost action) :
    (m.leftBy action).Accounts lost ∧
      ∀ e, failure? (action m) = some e → m.leftBy action = m := by
  unfold Settles at hSettles
  unfold Memory.leftBy
  cases hRun : action m with
  | ok a m' =>
      rw [hRun] at hSettles
      refine ⟨hSettles, ?_⟩
      intro e hError
      cases hError
  | error e m' =>
      rw [hRun] at hSettles
      cases hSettles
      exact ⟨hAccounts, fun _ _ => rfl⟩

theorem Accounts.settles_place
    {region : Region}
    (kind : MemoryKind)
    (hAbsent : ¬ m.IsResident t)
    (hPos : 0 < region.length) :
    m.Settles lost (place t kind region) := by
  unfold Settles place
  cases hReserve : (m.freeList kind).reserve? region with
  | none => rfl
  | some l =>
      let resident : Resident :=
        { binding := .opened t kind region.start region.length m.clock
          entry := m.history.length
          pins := 0
          nextUse := none }
      refine hAccounts.add (r := resident) hAbsent
        (List.perm_append_singleton _ _).symm ?_
        ((hAccounts.shares kind).reserve hPos hReserve)
      intro other
      cases kind <;> cases other <;> rfl

theorem Accounts.settles_allocate
    (t : TensorId)
    (name : String)
    (layout : VectorLayout)
    (kind : MemoryKind) :
    m.Settles lost (allocate t name layout kind) := by
  unfold Settles allocate
  by_cases hResident : m.IsResident t
  · rw [if_pos hResident]
    rfl
  rw [if_neg hResident]
  by_cases hSize : layout.depth = 0 ∨ m.capacity kind < layout.depth
  · rw [if_pos hSize]
  rw [if_neg hSize]
  cases hFit : (m.freeList kind).bestFit layout.depth layout.alignment with
  | some address =>
      have hPlace :
          m.Settles lost
            (place t kind { start := address, length := layout.depth }) :=
        hAccounts.settles_place kind hResident
          (Nat.pos_of_ne_zero (fun hZero => hSize (.inl hZero)))
      unfold Settles at hPlace
      simp only
      cases hRun :
          place t kind { start := address, length := layout.depth } m with
      | ok u m' =>
          rw [hRun] at hPlace
          exact hPlace
      | error e m' =>
          rw [hRun] at hPlace
          exact hPlace
  | none =>
      cases hVictims : m.victims? kind layout.depth layout.alignment with
      | none => simp only
      | some victims => exact hAccounts

/- The release of a tensor that is not pinned. -/
theorem Accounts.settles_release
    (spilled : Bool)
    (hUnpinned : ∀ r, m.resident? t = some r → r.pins = 0) :
    m.Settles lost (release t spilled) := by
  cases hFind : m.resident? t with
  | none =>
      unfold Settles release
      rw [hFind]
      rfl
  | some r =>
      rcases of_resident? hFind with ⟨hMem, rfl⟩
      have hPerm :
          m.residents.Perm (r :: (m.forget r.tensor).residents) :=
        (perm_filter_append hAccounts.distinct hMem).trans
          (List.perm_append_singleton _ _)
      rcases hAccounts.remove hPerm with ⟨l, hRelease, hKept⟩
      unfold Settles
      rw [release_of_unpinned spilled hFind (hUnpinned r hFind) hRelease]
      apply hKept
      · cases r.binding.kind <;> rfl
      · intro other
        rw [freeList_setFreeList]
        cases other <;> rfl

theorem Accounts.settles_spill
    (hStranded : m.stranded? (.spill t) = none) :
    m.Settles lost (spill t) := by
  by_cases hKind : (m.binding? t).any (fun b => b.kind = .accumulator) = true
  · unfold Settles spill
    rw [if_pos hKind]
    rfl
  · have hUnpinned : ∀ r, m.resident? t = some r → r.pins = 0 := by
      intro r hFind
      by_contra hPinned
      have hScratchpad : r.binding.kind = .scratchpad := by
        rw [binding?, hFind, Option.map_some, Option.any_some] at hKind
        cases hBinding : r.binding.kind with
        | scratchpad => rfl
        | accumulator => exact absurd (decide_eq_true hBinding) hKind
      apply Option.filter_eq_none_iff.mp hStranded r hFind
      exact decide_eq_true ⟨hPinned, hScratchpad⟩
    have hRelease := hAccounts.settles_release true hUnpinned
    unfold Settles spill
    rw [if_neg hKind]
    unfold Settles at hRelease
    cases hRun : release t true m with
    | error e m' =>
        rw [hRun] at hRelease
        exact hRelease
    | ok b m' =>
        rw [hRun] at hRelease
        exact ⟨hRelease.distinct, hRelease.shares⟩

theorem Accounts.settles_pin
    (t : TensorId) :
    m.Settles lost (pin t) := by
  unfold Settles pin
  by_cases hResident : m.IsResident t
  · rw [if_pos hResident]
    exact hAccounts.modifyResident t (fun _ => rfl)
  · rw [if_neg hResident]
    rfl

theorem Accounts.settles_unpin
    (t : TensorId) :
    m.Settles lost (unpin t) := by
  unfold Settles unpin
  by_cases hPinned : (m.resident? t).any (fun r => 0 < r.pins) = true
  · rw [if_pos hPinned]
    exact hAccounts.modifyResident t (fun _ => rfl)
  · rw [if_neg hPinned]
    rfl

/- What a request does that strands no tensor. -/
theorem Accounts.serve
    {request : Request}
    (hStranded : m.stranded? request = none) :
    (m.serve request).Accounts lost ∧
      ∀ e, m.refusal? request = some e → m.serve request = m := by
  cases request with
  | allocate t name layout kind =>
      exact (hAccounts.settles_allocate t name layout kind).leftBy hAccounts
  | free t =>
      refine (hAccounts.settles_release false ?_).leftBy hAccounts
      intro r hFind
      by_contra hPinned
      apply Option.filter_eq_none_iff.mp hStranded r hFind
      exact decide_eq_true hPinned
  | spill t => exact (hAccounts.settles_spill hStranded).leftBy hAccounts
  | pin t => exact (hAccounts.settles_pin t).leftBy hAccounts
  | unpin t => exact (hAccounts.settles_unpin t).leftBy hAccounts
  | setNextUse t nextUse =>
      refine ⟨hAccounts.modifyResident t (fun _ => rfl), ?_⟩
      intro e hRefusal
      cases hRefusal
  | setClock position =>
      refine ⟨⟨hAccounts.distinct, hAccounts.shares⟩, ?_⟩
      intro e hRefusal
      cases hRefusal

/- What several requests do. -/
theorem Accounts.serveAll
    (rs : List Request) :
    (m.serveAll rs).Accounts (m.strandedAll rs ++ lost) := by
  induction rs generalizing m lost with
  | nil => exact hAccounts
  | cons request rs ih =>
      cases hStranded : m.stranded? request with
      | none =>
          have hNext := ih (hAccounts.serve hStranded).1
          rw [strandedAll, hStranded]
          exact hNext
      | some r =>
          rcases serve_of_stranded hStranded with ⟨hMem, -, -, hServe⟩
          have hNext := ih (hAccounts.strand hMem)
          rw [← hServe] at hNext
          rw [strandedAll, hStranded]
          refine hNext.perm hNext.distinct (fun _ => rfl) ?_
          apply List.Perm.append_left
          exact List.perm_middle

end

------------------------------------------------------------
-- Audits
------------------------------------------------------------

/- The present bindings of a memory have the regions of its tensors. -/
theorem live_perm_regions
    (m : Memory)
    (kind : MemoryKind) :
    ((m.live kind).map Binding.region).Perm (regions m.residents kind) := by
  unfold live
  refine ((sortBy_perm _ _).map Binding.region).trans ?_
  rw [List.filter_map, List.map_map]
  exact .refl _

/- A memory has no fault exactly if no tensor of it is stranded. -/
theorem Accounts.kindFault?_eq_none_iff
    (hAccounts : m.Accounts lost)
    (kind : MemoryKind) :
    m.kindFault? kind = none ↔ regions lost kind = [] := by
  have hShares := hAccounts.shares kind
  rw [regions_append] at hShares
  have hLive := hShares.perm ((m.live_perm_regions kind).symm.append_right _)
  have hApart :
      (m.live kind).Pairwise (fun a b => ¬ a.region.Overlaps b.region) := by
    have hRegions := (List.pairwise_append.mp hLive.apart).1
    exact List.pairwise_map.mp hRegions
  have hUsed :
      m.used kind =
        ((m.live kind).map (·.size)).sum + extent (regions lost kind) := by
    rw [used, hLive.used_eq, extent_append, extent, List.map_map]
    rfl
  have hLost : extent (regions lost kind) = 0 ↔ regions lost kind = [] := by
    apply extent_eq_zero_iff
    intro s hMem
    exact (hLive.within s (List.mem_append_right _ hMem)).1
  simp only [kindFault?, firstOverlap?_eq_none hApart]
  rw [← hLost, hUsed]
  split
  case isTrue hSame =>
    simp only [true_iff]
    omega
  case isFalse hOther =>
    simp only [reduceCtorEq, false_iff]
    omega

/- Stranded tensors are the only fault that an audit can find. -/
theorem Accounts.audit_iff
    (hAccounts : m.Accounts lost) :
    m.audit = .ok () ↔ lost = [] := by
  have hFaults :
      MemoryKind.all.findSome? m.kindFault? = none ↔
        ∀ kind, regions lost kind = [] := by
    rw [List.findSome?_eq_none_iff]
    constructor
    · intro hNone kind
      apply (hAccounts.kindFault?_eq_none_iff kind).mp
      apply hNone
      cases kind <;> decide
    · intro hLost kind _
      exact (hAccounts.kindFault?_eq_none_iff kind).mpr (hLost kind)
  have hEmpty : (∀ kind, regions lost kind = []) ↔ lost = [] := by
    cases lost with
    | nil => simp [regions]
    | cons r lost =>
        simp only [reduceCtorEq, iff_false]
        intro hNone
        have hOwn := hNone r.binding.kind
        rw [regions_cons_of_eq rfl] at hOwn
        cases hOwn
  rw [← hEmpty, ← hFaults]
  unfold audit
  cases MemoryKind.all.findSome? m.kindFault? <;> simp

end Accounts

------------------------------------------------------------
-- Refused Requests
------------------------------------------------------------

/- A stranded tensor was on the chip before. -/
theorem forget_ne
    (hMem : r ∈ m.residents) :
    m.forget r.tensor ≠ m := by
  intro hSame
  rw [← hSame] at hMem
  have hOther := of_decide_eq_true (List.mem_filter.mp hMem).2
  exact hOther rfl

/-
  In memories that start without tensors, after any requests, a
  refused request changes nothing exactly if it strands no
  tensor. A request that strands a tensor is refused because the
  tensor is pinned, and forgets it, without a change to anything
  else. The audit passes exactly as long as no tensor was
  stranded.
-/
theorem refused_unchanged_unless_stranded
    (localDepth accumulatorDepth : Nat)
    (rs : List Request) :
    let start := empty localDepth accumulatorDepth
    let m := start.serveAll rs
    (∀ request e, m.refusal? request = some e →
      (m.serve request = m ↔ m.stranded? request = none)) ∧
    (∀ request r, m.stranded? request = some r →
      r ∈ m.residents ∧ r.pins ≠ 0 ∧
        m.refusal? request = some (.invariant (.releasedPinned r.tensor)) ∧
        m.serve request = m.forget r.tensor) ∧
    (m.audit = .ok () ↔ start.strandedAll rs = []) := by
  intro start m
  have hAccounts : m.Accounts (start.strandedAll rs) := by
    have hAll := (accounts_empty localDepth accumulatorDepth).serveAll rs
    rw [List.append_nil] at hAll
    exact hAll
  refine ⟨?_, fun request r => serve_of_stranded, hAccounts.audit_iff⟩
  intro request e hRefusal
  constructor
  · intro hSame
    cases hStranded : m.stranded? request with
    | none => rfl
    | some r =>
        rcases serve_of_stranded hStranded with ⟨hMem, -, -, hServe⟩
        exact absurd (hServe.symm.trans hSame) (forget_ne hMem)
  · intro hStranded
    exact (hAccounts.serve hStranded).2 e hRefusal

/- A tensor is stranded by a spill, placed again and pinned again. -/
def leak : List Request :=
  [ .allocate ⟨0⟩ "a" (column 4 1) .scratchpad,
    .pin ⟨0⟩,
    .spill ⟨0⟩,
    .allocate ⟨0⟩ "a" (column 8 1) .scratchpad,
    .pin ⟨0⟩ ]

theorem refused_unchanged_unless_stranded_leak :
    let m := (empty 16 8).serveAll leak
    m.refusal? (.pin ⟨1⟩) = some (.invariant (.cannotPin ⟨1⟩)) ∧
      m.serve (.pin ⟨1⟩) = m ∧
      (∃ r, m.stranded? (.free ⟨0⟩) = some r ∧
        m.serve (.free ⟨0⟩) = m.forget r.tensor) ∧
      m.audit ≠ .ok () := by
  intro m
  rcases refused_unchanged_unless_stranded 16 8 leak with
    ⟨hRefused, hStranded, hAudit⟩
  have hRefusal :
      m.refusal? (.pin ⟨1⟩) = some (.invariant (.cannotPin ⟨1⟩)) := by
    decide
  refine ⟨hRefusal, (hRefused _ _ hRefusal).mpr rfl, ?_, ?_⟩
  · cases hFree : m.stranded? (.free ⟨0⟩) with
    | none => exact absurd hFree (by decide)
    | some r => exact ⟨r, rfl, (hStranded _ r hFree).2.2.2⟩
  · rw [ne_eq, hAudit]
    decide

/-
  A pinned tensor that is to be freed is gone after the refusal,
  and its vectors are in use without it.
-/
theorem free_pinned_leaks :
    let m :=
      (empty 16 8).serveAll
        [.allocate ⟨0⟩ "a" (column 4 1) .scratchpad, .pin ⟨0⟩]
    m.audit = .ok () ∧
      m.refusal? (.free ⟨0⟩) = some (.invariant (.releasedPinned ⟨0⟩)) ∧
      m.serve (.free ⟨0⟩) ≠ m ∧
      (m.serve (.free ⟨0⟩)).audit = .error (.miscounted .scratchpad 0 4) := by
  decide

end Memory

end Systolic
