import Mathlib.Order.Bounds.Basic
import Systolic.Proofs.Memory.Victims
import Systolic.Proofs.Schedule.Stable

/-
  This file proves that the next uses that the memories have
  noted are those of the pending operations. A commitment makes
  them stale for the tensors that it reads and writes, and notes
  them again at its end. Before that it asks for room only for
  its own result, and it asks before anything is stale.

  Where next uses are not stale, the first victim of a request
  for room is a tensor that is read as late as any other one.

  Key definitions include:
    * `Run.readers`
    * `Memory.Inherits`
    * `Run.Tracks`

  Key theorems include:
    * `Run.Lists.isLeast_nextUse?`
    * `Memory.victims?_furthest`
    * `Commit.evict_tracks`
-/

namespace Systolic

------------------------------------------------------------
-- Pending Readers
------------------------------------------------------------

namespace Run

/- The places of the readers of a tensor that are not committed. -/
def readers
    (program : List Operation)
    (run : Run)
    (t : TensorId) : Set Nat :=
  {i | ∃ op, program[i]? = some op ∧ t ∈ op.reads ∧
    ∀ c ∈ run.committed, c.origin ≠ some i}

/- The next use of a tensor is the place of its next reader. -/
theorem Lists.isLeast_nextUse?
    {program : List Operation}
    {run : Run}
    {t : TensorId}
    {i : Nat}
    (hLists : run.Lists program)
    (hUse : run.nextUse? t = some i) :
    IsLeast (run.readers program t) i := by
  rw [run.agrees.nextUse?_eq] at hUse
  rcases Option.map_eq_some_iff.mp hUse with ⟨⟨_, op⟩, hFind, rfl⟩
  rcases List.find?_eq_some_iff_append.mp hFind with
    ⟨hReading, before, after, hPending, hBefore⟩
  have hSorted := run.agrees.sorted
  rw [hPending] at hSorted
  constructor
  · have hMem : (_, op) ∈ run.pending := List.mem_of_find?_eq_some hFind
    rcases (hLists _ op).mp hMem with ⟨hGet, hNew⟩
    exact ⟨op, hGet, (Operation.reading_iff_mem_reads t op).mp hReading, hNew⟩
  · rintro j ⟨op', hGet, hReads, hNew⟩
    have hMem : (j, op') ∈ run.pending :=
      (hLists j op').mpr ⟨hGet, hNew⟩
    rw [hPending] at hMem
    rcases List.mem_append.mp hMem with hEarlier | hRest
    · have hNot := hBefore _ hEarlier
      rw [(Operation.reading_iff_mem_reads t op').mpr hReads] at hNot
      cases hNot
    · rcases List.mem_cons.mp hRest with hSame | hLater
      · exact (congrArg Prod.fst hSame).ge
      · have hTail := (List.pairwise_append.mp hSorted).2.1
        exact ((List.pairwise_cons.mp hTail).1 _ hLater).le

end Run

------------------------------------------------------------
-- Memories
------------------------------------------------------------

namespace Memory

variable {m : Memory} {t : TensorId}

/-
  The tensors on the chip were there before, with the same next
  uses. Those of a list need not have been.
-/
def Inherits
    (m : Memory)
    (new : List TensorId)
    (m' : Memory) : Prop :=
  ∀ r ∈ m'.residents, r.tensor ∉ new →
    ∃ old ∈ m.residents, old.tensor = r.tensor ∧ old.nextUse = r.nextUse

theorem inherits_setClock
    (m : Memory)
    (position : Nat) :
    m.Inherits [] (m.setClock position) :=
  fun r hMem _ => ⟨r, hMem, rfl, rfl⟩

theorem inherits_modifyResident
    {change : Resident → Resident}
    (hTensor : ∀ r, (change r).tensor = r.tensor)
    (hUse : ∀ r, (change r).nextUse = r.nextUse) :
    m.Inherits [] (m.modifyResident t change) := by
  intro r hMem _
  rcases List.mem_map.mp hMem with ⟨old, hOld, rfl⟩
  refine ⟨old, hOld, ?_⟩
  split
  case isTrue => exact ⟨(hTensor old).symm, (hUse old).symm⟩
  case isFalse => exact ⟨rfl, rfl⟩

theorem pin_inherits :
    Ensures (pin t) m (fun _ => True) (fun _ m' => m.Inherits [] m') := by
  unfold Ensures pin
  by_cases hResident : m.IsResident t
  · rw [if_pos hResident]
    exact inherits_modifyResident (fun _ => rfl) (fun _ => rfl)
  · rw [if_neg hResident]
    trivial

theorem unpin_inherits :
    Ensures (unpin t) m (fun _ => True) (fun _ m' => m.Inherits [] m') := by
  unfold Ensures unpin
  by_cases hPinned : (m.resident? t).any (fun r => 0 < r.pins) = true
  · rw [if_pos hPinned]
    exact inherits_modifyResident (fun _ => rfl) (fun _ => rfl)
  · rw [if_neg hPinned]
    trivial

/- The next use of one tensor is noted. -/
theorem setNextUse_inherits
    (m : Memory)
    (t : TensorId)
    (use : Option Nat) :
    m.Inherits [t] (m.setNextUse t use) ∧
      ∀ r ∈ (m.setNextUse t use).residents, r.tensor = t → r.nextUse = use := by
  constructor
  · intro r hMem hOther
    rcases List.mem_map.mp hMem with ⟨old, hOld, rfl⟩
    by_cases hSame : old.tensor = t
    · rw [if_pos hSame] at hOther
      exact absurd (List.mem_singleton.mpr hSame) hOther
    · rw [if_neg hSame]
      exact ⟨old, hOld, rfl, rfl⟩
  · intro r hMem hTensor
    rcases List.mem_map.mp hMem with ⟨old, hOld, rfl⟩
    by_cases hSame : old.tensor = t
    · rw [if_pos hSame]
    · rw [if_neg hSame] at hTensor
      exact absurd hTensor hSame

/- A tensor that is released leaves, and no other one does. -/
theorem release_inherits
    (spilled : Bool) :
    Ensures (release t spilled) m (fun _ => True)
      (fun _ m' => m.Inherits [] m' ∧ ¬ m'.IsResident t) := by
  have hForget :
      ∀ m' : Memory, m'.residents = (m.forget t).residents →
        m.Inherits [] m' ∧ ¬ m'.IsResident t := by
    intro m' hResidents
    rw [isResident_iff_mem]
    constructor
    · intro r hMem _
      rw [hResidents] at hMem
      exact ⟨r, List.mem_of_mem_filter hMem, rfl, rfl⟩
    · rintro ⟨r, hMem, hTensor⟩
      rw [hResidents] at hMem
      exact of_decide_eq_true (List.mem_filter.mp hMem).2 hTensor
  unfold Ensures release
  cases m.resident? t with
  | none => trivial
  | some r =>
      dsimp only
      split
      case h_1 a m' hRun =>
        split at hRun
        case isTrue => cases hRun
        case isFalse =>
          split at hRun
          case h_1 => cases hRun
          case h_2 l hRelease =>
            cases hRun
            exact hForget _ (residents_setFreeList _ _ _)
      case h_2 => trivial

theorem spill_inherits :
    Ensures (spill t) m (fun _ => True) (fun _ m' => m.Inherits [] m') := by
  have hRelease := release_inherits (m := m) (t := t) true
  unfold Ensures at hRelease ⊢
  unfold spill
  by_cases hKind :
      (m.binding? t).any (fun b => b.kind = .accumulator) = true
  · rw [if_pos hKind]
    trivial
  · rw [if_neg hKind]
    cases hRun : release t true m with
    | error e m' => trivial
    | ok b m' =>
        rw [hRun] at hRelease
        exact hRelease.1

/- A request for room adds one tensor, or it names victims. -/
theorem allocate_inherits
    {name : String}
    {layout : VectorLayout}
    {kind : MemoryKind} :
    Ensures (allocate t name layout kind) m (fun _ => True)
      (fun result m' =>
        match result with
        | .placed _ => m.Inherits [t] m'
        | .spill _ victims =>
            m' = m ∧
              m.victims? kind layout.depth layout.alignment =
                some victims) := by
  unfold Ensures
  simp only [allocate]
  by_cases hResident : m.IsResident t
  · rw [if_pos hResident]
    trivial
  by_cases hSize : layout.depth = 0 ∨ m.capacity kind < layout.depth
  · rw [if_neg hResident, if_pos hSize]
    trivial
  rw [if_neg hResident, if_neg hSize]
  cases (m.freeList kind).bestFit layout.depth layout.alignment with
  | none =>
      cases m.victims? kind layout.depth layout.alignment with
      | none => trivial
      | some victims => exact ⟨rfl, rfl⟩
  | some address =>
      simp only [place]
      cases (m.freeList kind).reserve?
          { start := address, length := layout.depth } with
      | none => trivial
      | some l =>
          intro r hMem hOther
          rcases List.mem_append.mp hMem with hOld | hNew
          · exact ⟨r, hOld, rfl, rfl⟩
          · rcases List.mem_singleton.mp hNew with rfl
            exact absurd (List.mem_singleton.mpr rfl) hOther

/- The next use of the first victim is as far as any other one. -/
theorem victims?_furthest
    {kind : MemoryKind}
    {size alignment : Nat}
    {victims : List TensorId}
    (hVictims : m.victims? kind size alignment = some victims) :
    ∃ v ∈ m.evictables, victims.head? = some v.tensor ∧
      ∀ r ∈ m.evictables, useRank r ≤ useRank v := by
  cases kind with
  | accumulator => cases hVictims
  | scratchpad =>
      have hOrder := m.leavingOrder_candidates
      unfold victims? at hVictims
      cases hCandidates : m.candidates with
      | nil =>
          rw [hCandidates] at hVictims
          cases hVictims
      | cons v rest =>
          rw [hCandidates] at hOrder hVictims
          refine ⟨v, hOrder.perm.mem_iff.mp List.mem_cons_self, ?_, ?_⟩
          · simp only [victimsFrom?] at hVictims
            split at hVictims
            case isTrue =>
              cases hVictims
              rfl
            case isFalse =>
              rcases Option.map_eq_some_iff.mp hVictims with ⟨_, -, rfl⟩
              rfl
          · intro r hMem
            rcases List.mem_cons.mp (hOrder.perm.mem_iff.mpr hMem) with
              rfl | hLater
            · exact Nat.le_refl _
            · have hFirst :=
                (List.pairwise_cons.mp hOrder.sorted).1 r hLater
              unfold LeavesFirst at hFirst
              omega

end Memory

------------------------------------------------------------
-- Noted Uses
------------------------------------------------------------

/-
  Every tensor on the chip has a pending reader, whose place is
  noted as its next use. The notes of some tensors may be stale,
  and some tensors may be unread.
-/
structure Run.Tracks
    (stale unread : List TensorId)
    (run : Run) : Prop where
  noted :
    ∀ r ∈ run.bench.memory.residents, r.tensor ∉ stale →
      r.nextUse = run.nextUse? r.tensor
  needed :
    ∀ r ∈ run.bench.memory.residents, r.tensor ∉ unread →
      run.nextUse? r.tensor ≠ none

namespace Run.Tracks

variable {run : Run} {stale unread : List TensorId}

theorem mono
    {stale' unread' : List TensorId}
    (hTracks : run.Tracks stale unread)
    (hStale : stale ⊆ stale')
    (hUnread : unread ⊆ unread') :
    run.Tracks stale' unread' :=
  ⟨fun r hMem hNot => hTracks.noted r hMem (fun hT => hNot (hStale hT)),
    fun r hMem hNot => hTracks.needed r hMem (fun hT => hNot (hUnread hT))⟩

theorem setMemory
    {new : List TensorId}
    {m : Memory}
    (hTracks : run.Tracks stale unread)
    (hInherits : run.bench.memory.Inherits new m) :
    (run.setMemory m).Tracks (new ++ stale) (new ++ unread) := by
  constructor
  case noted =>
    intro r hMem hNot
    rw [List.mem_append, not_or] at hNot
    rcases hInherits r hMem hNot.1 with ⟨old, hOld, hTensor, hUse⟩
    rw [← hUse, ← hTensor]
    exact hTracks.noted old hOld (hTensor ▸ hNot.2)
  case needed =>
    intro r hMem hNot
    rw [List.mem_append, not_or] at hNot
    rcases hInherits r hMem hNot.1 with ⟨old, hOld, hTensor, -⟩
    rw [← hTensor]
    exact hTracks.needed old hOld (hTensor ▸ hNot.2)

/- What an operation reads may be stale and unread without it. -/
theorem retire
    {i cycles : Nat}
    {op : Operation}
    (hTracks : run.Tracks stale unread)
    (hOnly : ∀ op', (i, op') ∈ run.pending → op' = op) :
    (run.retire op i cycles).Tracks (op.reads ++ stale)
      (op.reads ++ unread) := by
  have hSame :
      ∀ t, t ∉ op.reads →
        (run.retire op i cycles).nextUse? t = run.nextUse? t := by
    intro t hNot
    rw [(run.retire op i cycles).agrees.nextUse?_eq, run.agrees.nextUse?_eq]
    simp only [Run.retire, Ledger.pending_retire]
    rcases List.exists_or_eq_self_of_eraseP (fun p => p.1 = i) run.pending with
      hNone | ⟨⟨k, op'⟩, before, after, -, hPlace, hPending, hErased⟩
    · rw [hNone]
    · cases of_decide_eq_true hPlace
      have hMem : (k, op') ∈ run.pending := by simp [hPending]
      have hUnread : ¬ op'.reading t = true := by
        rw [hOnly op' hMem, Operation.reading_iff_mem_reads]
        exact hNot
      rw [hErased, hPending, List.find?_append, List.find?_append,
        List.find?_cons_of_neg (a := (k, op')) hUnread]
  constructor
  case noted =>
    intro r hMem hNot
    rw [List.mem_append, not_or] at hNot
    rw [hSame r.tensor hNot.1]
    exact hTracks.noted r hMem hNot.2
  case needed =>
    intro r hMem hNot
    rw [List.mem_append, not_or] at hNot
    rw [hSame r.tensor hNot.1]
    exact hTracks.needed r hMem hNot.2

end Run.Tracks

namespace Commit

variable {run : Run} {stale unread : List TensorId}
variable {t : TensorId}

/- A tensor that is unread does not stay. -/
theorem releaseUnread_tracks
    (hTracks : run.Tracks stale (t :: unread)) :
    Ensures (releaseUnread t) run (fun _ => True)
      (fun _ run' => run'.Tracks stale unread) := by
  unfold releaseUnread
  simp only [ensures_bind, ensures_get]
  split
  case isTrue =>
    simp only [ensures_bind, ensures_pure]
    refine onMemory_ensures (Memory.release_inherits false)
      (fun _ _ => trivial) ?_
    rintro _ m ⟨hInherits, hGone⟩
    have hAfter := hTracks.setMemory hInherits
    refine ⟨hAfter.noted, ?_⟩
    intro r hMem hNot
    refine hAfter.needed r hMem ?_
    intro hT
    rcases List.mem_cons.mp hT with hSame | hLater
    · exact hGone (Memory.isResident_iff_mem.mpr ⟨r, hMem, hSame⟩)
    · exact hNot hLater
  case isFalse hStays =>
    refine ⟨hTracks.noted, ?_⟩
    intro r hMem hNot hUse
    by_cases hSame : r.tensor = t
    · have hNone := (run.agrees.remaining_eq_zero_iff_nextUse? _).mpr hUse
      exact hStays
        ⟨Memory.isResident_iff_mem.mpr ⟨r, hMem, hSame⟩, hSame ▸ hNone⟩
    · refine hTracks.needed r hMem ?_ hUse
      intro hT
      exact (List.mem_cons.mp hT).elim hSame hNot

/- A tensor whose next use is noted is stale no more. -/
theorem noteNextUse_tracks
    (hTracks : run.Tracks (t :: stale) unread) :
    Ensures (noteNextUse t) run (fun _ => True)
      (fun _ run' => run'.Tracks stale unread) := by
  simp only [noteNextUse, modifyMemory, ensures_bind, ensures_get,
    ensures_modify]
  rcases run.bench.memory.setNextUse_inherits t (run.nextUse? t) with
    ⟨hInherits, hUse⟩
  change (run.setMemory
    (run.bench.memory.setNextUse t (run.nextUse? t))).Tracks stale unread
  constructor
  case noted =>
    intro r hMem hNot
    by_cases hSame : r.tensor = t
    · rw [hUse r hMem hSame, hSame]
      rfl
    · have hOther : r.tensor ∉ [t] := by simpa using hSame
      rcases hInherits r hMem hOther with ⟨old, hOld, hTensor, hSameUse⟩
      rw [← hSameUse, ← hTensor]
      exact hTracks.noted old hOld (by simp [hTensor, hSame, hNot])
  case needed =>
    intro r hMem hNot
    have hRoom :
        run.bench.memory.SameRoom
          (run.bench.memory.setNextUse t (run.nextUse? t)) :=
      Memory.sameRoom_modifyResident (fun _ => rfl)
    have hOn := (hRoom.resident_iff r.tensor).mp
      (Memory.isResident_iff_mem.mpr ⟨r, hMem, rfl⟩)
    rcases Memory.isResident_iff_mem.mp hOn with ⟨old, hOld, hTensor⟩
    rw [← hTensor]
    exact hTracks.needed old hOld (hTensor ▸ hNot)

theorem forM_releaseUnread_tracks
    {ts : List TensorId}
    (hTracks : run.Tracks stale (ts ++ unread)) :
    Ensures (ts.forM releaseUnread) run (fun _ => True)
      (fun _ run' => run'.Tracks stale unread) :=
  Ensures.forM (fun rest => Run.Tracks stale (rest ++ unread)) hTracks
    (fun _ _ _ hRest => releaseUnread_tracks hRest)

theorem forM_noteNextUse_tracks
    {ts : List TensorId}
    (hTracks : run.Tracks ts unread) :
    Ensures (ts.forM noteNextUse) run (fun _ => True)
      (fun _ run' => run'.Tracks [] unread) :=
  Ensures.forM (fun rest => Run.Tracks rest unread) hTracks
    (fun _ _ _ hRest => noteNextUse_tracks hRest)

/- What was read and written is released, or its next use is noted. -/
theorem settle_tracks
    {op : Operation}
    {origin : Option Nat}
    (hTracks : run.Tracks op.writes.toList op.writes.toList)
    (hOnly : ∀ i ∈ origin, ∀ op', (i, op') ∈ run.pending → op' = op) :
    Ensures (settle op origin) run (fun _ => True)
      (fun _ run' => run'.Tracks [] []) := by
  -- Before the result is looked at, all operands are read or gone.
  have hLater :
      ∀ run₁ : Run,
        run₁.Tracks (op.reads ++ op.writes.toList) op.writes.toList →
          Ensures (do
            op.writes.toList.forM releaseUnread
            (op.reads ++ op.writes.toList).forM noteNextUse) run₁
            (fun _ => True) (fun _ run' => run'.Tracks [] []) := by
    intro run₁ hTracks₁
    refine (forM_releaseUnread_tracks ?_).bind
      (fun _ _ hTracks₂ => forM_noteNextUse_tracks hTracks₂)
    rw [List.append_nil]
    exact hTracks₁
  unfold settle
  cases origin with
  | none =>
      exact hLater run
        (hTracks.mono (List.subset_append_right _ _) (List.Subset.refl _))
  | some i =>
      simp only [ensures_bind]
      change Ensures
        ((retire op i >>= fun _ => op.reads.forM releaseUnread) >>= fun _ =>
          pure ()) run (fun _ => True) _
      simp only [retire, ensures_bind, ensures_ask, ensures_modify,
        ensures_pure]
      apply Yields.of_forall
      intro cycles _
      refine (forM_releaseUnread_tracks
        (hTracks.retire (hOnly i rfl))).weaken ?_
      intro _ run₁ hTracks₁
      exact ensures_bind.mp (hLater run₁ hTracks₁)

/- Next uses are noted again once an operation has been committed. -/
theorem finish_tracks
    (op : Operation)
    (origin : Option Nat)
    (anchor : Nat)
    (pins : List TensorId)
    (hTracks : run.Tracks op.writes.toList op.writes.toList)
    (hOnly : ∀ i ∈ origin, ∀ op', (i, op') ∈ run.pending → op' = op) :
    Ensures (finish op origin anchor pins) run (fun _ => True)
      (fun _ run' => run'.Tracks [] []) := by
  refine emit_appends.bind ?_
  rintro _ run₁ ⟨e, cycles, rfl⟩
  -- Neither the words nor the pins matter to the next uses.
  have hUnpins :
      Ensures (pins.forM (fun t => onMemory (Memory.unpin t)))
        (run.append op origin e cycles) (fun _ => True)
        (fun _ run₂ =>
          run₂.Tracks op.writes.toList op.writes.toList ∧
            run₂.pending = run.pending) := by
    refine Ensures.forM
      (fun _ (run₂ : Run) =>
        run₂.Tracks op.writes.toList op.writes.toList ∧
          run₂.pending = run.pending)
      ⟨⟨hTracks.noted, hTracks.needed⟩, rfl⟩ ?_
    rintro t _ run₂ ⟨hTracks₂, hPending⟩
    exact onMemory_ensures Memory.unpin_inherits (fun _ _ => trivial)
      (fun _ _ hInherits => ⟨hTracks₂.setMemory hInherits, hPending⟩)
  refine hUnpins.bind ?_
  rintro _ run₂ ⟨hTracks₂, hPending⟩
  refine settle_tracks hTracks₂ ?_
  rw [hPending]
  exact hOnly

theorem spill_tracks
    (hTracks : run.Tracks [] []) :
    Ensures (onMemory (Memory.spill t)) run (fun _ => True)
      (fun _ run' => run'.Tracks [] []) :=
  onMemory_ensures Memory.spill_inherits (fun _ _ => trivial)
    (fun _ _ hInherits => hTracks.setMemory hInherits)

/- A tensor leaves, and the next uses of all others stay noted. -/
theorem evict_tracks
    {anchor : Nat}
    (hTracks : run.Tracks [] []) :
    Ensures (evict anchor t) run (fun _ => True)
      (fun _ run' => run'.Tracks [] []) := by
  unfold evict fetch
  simp only [ensures_bind, ensures_ask]
  apply Yields.of_forall
  intro tensor _
  split
  case isFalse =>
    simp only [ensures_bind, ensures_setClock, ensures_pure]
    exact spill_tracks (hTracks.setMemory (Memory.inherits_setClock _ _))
  case isTrue =>
    simp only [ensures_bind, ensures_pure]
    refine reserveSpill_keeps.weaken ?_
    rintro _ run₁ ⟨bench, rfl, hMemory⟩
    have hTracks₁ : Run.Tracks [] [] { run with bench } := by
      constructor
      case noted =>
        rw [hMemory]
        exact hTracks.noted
      case needed =>
        rw [hMemory]
        exact hTracks.needed
    have hPins :
        Keeps (fun _ => True) (Run.Tracks [] [])
          ((Operation.reads (.spill t) ++ []).forM
            (fun u => onMemory (Memory.pin u))) := by
      refine Keeps.forM (fun u run₂ hTracks₂ => ?_) _
      exact onMemory_ensures Memory.pin_inherits (fun _ _ => trivial)
        (fun _ _ hInherits => hTracks₂.setMemory hInherits)
    have hStore :
        Ensures
          (Asking.perform (fun _ => return ()) (.spill t) none anchor [] :
            Commit Unit)
          { run with bench } (fun _ => True)
          (fun _ run₂ => run₂.Tracks [] []) := by
      unfold Asking.perform
      simp only [monadLift_self, ensures_bind, ensures_setClock]
      refine (hPins _
        (hTracks₁.setMemory (Memory.inherits_setClock _ _))).weaken ?_
      intro _ run₂ hTracks₂
      exact finish_tracks (.spill t) none anchor
        (Operation.reads (.spill t) ++ []) hTracks₂ (by simp)
    exact hStore.weaken (fun _ _ hTracks₂ => spill_tracks hTracks₂)

end Commit

end Systolic
