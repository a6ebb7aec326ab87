import Systolic.Proofs.Schedule.Select

/-
  This file proves what one round of a scheduler can do, whatever
  the program. The oldest pending operation may be preceded by
  operations that the scheduler adds and by evictions. Any other
  operation is committed alone, with its operands on the chip and
  its result placed at once.

  Key definitions include:
    * `Memory.Calm`
    * `Run.Enters`
    * `Run.Injects`
    * `Run.Clean`
    * `Run.Round`

  Key theorems include:
    * `Commit.perform_enters`
    * `Commit.placeWithin_injects`
    * `Commit.next_round`
-/

namespace Systolic

/- Any error is tolerated. -/
theorem Yields.of_forall
    {ε α : Type}
    {result : Except ε α}
    {Q : α → Prop}
    (hAll : ∀ a, result = .ok a → Q a) :
    Yields result (fun _ => True) Q := by
  cases result with
  | ok a => exact hAll a rfl
  | error e => trivial

------------------------------------------------------------
-- Memories
------------------------------------------------------------

/- A binding of the same tensor, in the same place and time. -/
def Binding.SameStart (b b' : Binding) : Prop :=
  b' = { b with releasedAt := b'.releasedAt, spilled := b'.spilled }

theorem Binding.SameStart.trans
    {b b' b'' : Binding}
    (hFirst : b.SameStart b')
    (hSecond : b'.SameStart b'') :
    b.SameStart b'' := by
  unfold SameStart at *
  rw [hSecond, hFirst]

theorem Binding.SameStart.place_iff
    {b b' : Binding}
    {t : TensorId}
    {kind : MemoryKind}
    {address size position : Nat}
    (hSame : b.SameStart b') :
    (b.tensor = t ∧ b.kind = kind ∧ b.address = address ∧ b.size = size ∧
        b.allocatedAt = position) ↔
      (b'.tensor = t ∧ b'.kind = kind ∧ b'.address = address ∧
        b'.size = size ∧ b'.allocatedAt = position) := by
  unfold SameStart at hSame
  rw [hSame]

namespace Memory

variable {m : Memory} {t : TensorId}
variable {m' m'' : Memory}

/- The history has the binding of every tensor on the chip. -/
def Recorded (m : Memory) : Prop :=
  ∀ r ∈ m.residents, m.history[r.entry]? = some r.binding

/- The history keeps its bindings, of which some may have ended. -/
structure Remembers (m m' : Memory) : Prop where
  recorded : m.Recorded → m'.Recorded
  bindings :
    m.Recorded → ∀ b ∈ m.history, ∃ b' ∈ m'.history, b.SameStart b'

theorem Remembers.refl (m : Memory) : m.Remembers m :=
  ⟨fun hRecorded => hRecorded, fun _ b hMem => ⟨b, hMem, rfl⟩⟩

theorem Remembers.trans
    (hFirst : m.Remembers m')
    (hSecond : m'.Remembers m'') :
    m.Remembers m'' := by
  constructor
  case recorded =>
    exact fun hRecorded => hSecond.recorded (hFirst.recorded hRecorded)
  case bindings =>
    intro hRecorded b hMem
    rcases hFirst.bindings hRecorded b hMem with ⟨b', hMem', hSame⟩
    rcases hSecond.bindings (hFirst.recorded hRecorded) b' hMem' with
      ⟨b'', hMem'', hSame'⟩
    exact ⟨b'', hMem'', hSame.trans hSame'⟩

theorem remembers_modifyResident
    {change : Resident → Resident}
    (hEntry : ∀ r, (change r).entry = r.entry)
    (hBinding : ∀ r, (change r).binding = r.binding) :
    m.Remembers (m.modifyResident t change) := by
  refine ⟨?_, fun _ b hMem => ⟨b, hMem, rfl⟩⟩
  intro hRecorded r hR
  rcases List.mem_map.mp hR with ⟨old, hOld, rfl⟩
  have hGet := hRecorded old hOld
  split
  case isTrue =>
    rw [hEntry, hBinding]
    exact hGet
  case isFalse => exact hGet

/- The binding of a tensor that is forgotten ends. -/
theorem remembers_set
    {r : Resident}
    {b : Binding}
    {lists : Memory}
    (hResident : m.resident? t = some r)
    (hSame : r.binding.SameStart b)
    (hResidents : lists.residents = (m.forget t).residents)
    (hHistory : lists.history = m.history.set r.entry b) :
    m.Remembers lists := by
  have hMem : r ∈ m.residents := List.mem_of_find?_eq_some hResident
  have hTensor : r.tensor = t := by
    simpa using List.find?_some hResident
  constructor
  case recorded =>
    intro hRecorded r' hR'
    rw [hResidents] at hR'
    rcases List.mem_filter.mp hR' with ⟨hOld, hOther⟩
    have hApart : r.entry ≠ r'.entry := by
      intro hEntry
      have hGet := hRecorded r' hOld
      rw [← hEntry, hRecorded r hMem] at hGet
      refine of_decide_eq_true hOther ?_
      rw [← hTensor, Resident.tensor, Resident.tensor,
        Option.some.inj hGet]
    rw [hHistory, List.getElem?_set_ne hApart]
    exact hRecorded r' hOld
  case bindings =>
    intro hRecorded c hC
    rcases List.mem_iff_getElem?.mp hC with ⟨k, hGet⟩
    rw [hHistory]
    by_cases hEntry : r.entry = k
    · rw [← hEntry, hRecorded r hMem] at hGet
      have hInside := (List.getElem?_eq_some_iff.mp (hRecorded r hMem)).1
      refine ⟨b, List.mem_set hInside b, ?_⟩
      rw [← Option.some.inj hGet]
      exact hSame
    · refine ⟨c, List.mem_iff_getElem?.mpr ⟨k, ?_⟩, rfl⟩
      rw [List.getElem?_set_ne hEntry]
      exact hGet

/- Memories at the same time, without a new eviction. -/
structure Calm (m m' : Memory) : Prop where
  clock : m'.clock = m.clock
  marked : ∀ b ∈ m'.history, b.spilled = true → b ∈ m.history
  remembers : m.Remembers m'

theorem Calm.refl (m : Memory) : m.Calm m :=
  ⟨rfl, fun _ hMem _ => hMem, .refl m⟩

theorem Calm.trans
    (hFirst : m.Calm m')
    (hSecond : m'.Calm m'') :
    m.Calm m'' :=
  ⟨hSecond.clock.trans hFirst.clock,
    fun b hMem hSpilled =>
      hFirst.marked b (hSecond.marked b hMem hSpilled) hSpilled,
    hFirst.remembers.trans hSecond.remembers⟩

/- Memories with the same free regions and the same tensors. -/
structure SameRoom (m m' : Memory) : Prop where
  lists : ∀ kind, m'.freeList kind = m.freeList kind
  resident_iff : ∀ u, m'.IsResident u ↔ m.IsResident u

theorem SameRoom.trans
    (hFirst : m.SameRoom m')
    (hSecond : m'.SameRoom m'') :
    m.SameRoom m'' :=
  ⟨fun kind => (hSecond.lists kind).trans (hFirst.lists kind),
    fun u => (hSecond.resident_iff u).trans (hFirst.resident_iff u)⟩

theorem sameRoom_setClock
    (m : Memory)
    (position : Nat) :
    m.SameRoom (m.setClock position) :=
  ⟨fun kind => by cases kind <;> rfl, fun _ => Iff.rfl⟩

theorem sameRoom_modifyResident
    {change : Resident → Resident}
    (hTensor : ∀ r, (change r).tensor = r.tensor) :
    m.SameRoom (m.modifyResident t change) := by
  refine ⟨fun kind => by cases kind <;> rfl, ?_⟩
  intro u
  have hSame :
      ∀ r : Resident,
        (if r.tensor = t then change r else r).tensor = r.tensor := by
    intro r
    split
    case isTrue => exact hTensor r
    case isFalse => rfl
  rw [isResident_iff_mem, isResident_iff_mem, modifyResident]
  simp only [List.mem_map, exists_exists_and_eq_and, hSame]

theorem pin_calm :
    Ensures (pin t) m (fun _ => True)
      (fun _ m' => m.Calm m' ∧ m.SameRoom m') := by
  unfold Ensures pin
  by_cases hResident : m.IsResident t
  · rw [if_pos hResident]
    exact ⟨⟨rfl, fun _ hMem _ => hMem,
        remembers_modifyResident (fun _ => rfl) (fun _ => rfl)⟩,
      sameRoom_modifyResident (fun _ => rfl)⟩
  · rw [if_neg hResident]
    trivial

theorem unpin_calm :
    Ensures (unpin t) m (fun _ => True) (fun _ m' => m.Calm m') := by
  unfold Ensures unpin
  by_cases hPinned : (m.resident? t).any (fun r => 0 < r.pins) = true
  · rw [if_pos hPinned]
    exact ⟨rfl, fun _ hMem _ => hMem,
      remembers_modifyResident (fun _ => rfl) (fun _ => rfl)⟩
  · rw [if_neg hPinned]
    trivial

section

variable (m : Memory) (kind : MemoryKind) (l : FreeList)

theorem history_setFreeList :
    (m.setFreeList kind l).history = m.history := by
  cases kind <;> rfl

theorem residents_setFreeList :
    (m.setFreeList kind l).residents = m.residents := by
  cases kind <;> rfl

theorem clock_setFreeList :
    (m.setFreeList kind l).clock = m.clock := by
  cases kind <;> rfl

end

/- A release marks one binding, with the time and its reason. -/
theorem release_marks
    (spilled : Bool) :
    Ensures (release t spilled) m (fun _ => True)
      (fun _ m' => m'.clock = m.clock ∧ m.Remembers m' ∧
        ∀ b ∈ m'.history, b ∈ m.history ∨
          b.spilled = spilled ∧ b.releasedAt = some m.clock) := by
  unfold Ensures release
  cases hResident : m.resident? t with
  | none => trivial
  | some r =>
      dsimp only
      split
      case h_1 a m' hRun =>
        split at hRun
        case isTrue => cases hRun
        case isFalse =>
          split at hRun
          case h_1 => cases hRun
          case h_2 l hRelease =>
            cases hRun
            refine ⟨?_, ?_, ?_⟩
            · rw [clock_setFreeList]
              rfl
            · refine remembers_set hResident ?_
                (residents_setFreeList _ _ _) (history_setFreeList _ _ _)
              rfl
            · intro b hMem
              have hSet :
                  b ∈ m.history.set r.entry
                    { r.binding with
                      releasedAt := some m.clock, spilled } := by
                rw [history_setFreeList] at hMem
                exact hMem
              rcases List.mem_or_eq_of_mem_set hSet with hOld | rfl
              · exact .inl hOld
              · exact .inr ⟨rfl, rfl⟩
      case h_2 => trivial

theorem free_calm :
    Ensures (free t) m (fun _ => True) (fun _ m' => m.Calm m') := by
  refine (release_marks false).weaken ?_
  rintro _ m' ⟨hClock, hRemembers, hMarks⟩
  refine ⟨hClock, ?_, hRemembers⟩
  intro b hMem hSpilled
  rcases hMarks b hMem with hOld | ⟨hFalse, -⟩
  · exact hOld
  · cases hFalse.symm.trans hSpilled

/- An eviction is marked with the time. -/
theorem spill_marks :
    Ensures (spill t) m (fun _ => True)
      (fun _ m' => m.Remembers m' ∧
        ∀ b ∈ m'.history, b.spilled = true →
          b ∈ m.history ∨ b.releasedAt = some m.clock) := by
  have hRelease := release_marks (m := m) (t := t) true
  unfold Ensures at hRelease ⊢
  unfold spill
  by_cases hKind :
      (m.binding? t).any (fun b => b.kind = .accumulator) = true
  · rw [if_pos hKind]
    trivial
  · rw [if_neg hKind]
    cases hRun : release t true m with
    | error e m' => trivial
    | ok b m' =>
        rw [hRun] at hRelease
        rcases hRelease with ⟨-, hRemembers, hMarks⟩
        refine ⟨⟨hRemembers.recorded, hRemembers.bindings⟩, ?_⟩
        intro c hMem _
        exact (hMarks c hMem).imp_right And.right

section Allocate

variable {name : String} {layout : VectorLayout} {kind : MemoryKind}

/-
  What a request for room can lead to. It is refused, or victims
  are named because it does not fit, or it is placed.
-/
theorem allocate_cases
    (m : Memory)
    (t : TensorId)
    (name : String)
    (layout : VectorLayout)
    (kind : MemoryKind) :
    (∃ e, allocate t name layout kind m = .error e m) ∨
    (∃ victims, allocate t name layout kind m = .ok (.spill kind victims) m ∧
      ¬ m.Fits layout kind) ∨
    ∃ address l m',
      allocate t name layout kind m = .ok (.placed address) m' ∧
        ¬ m.IsResident t ∧
        ¬ (layout.depth = 0 ∨ (m.freeList kind).capacity < layout.depth) ∧
        (m.freeList kind).bestFit layout.depth layout.alignment =
          some address ∧
        (m.freeList kind).reserve?
          { start := address, length := layout.depth } = some l ∧
        m'.clock = m.clock ∧ m.Remembers m' ∧
        m'.history =
          m.history ++ [.opened t kind address layout.depth m.clock] := by
  simp only [allocate, Fits]
  by_cases hResident : m.IsResident t
  · exact .inl ⟨_, if_pos hResident⟩
  by_cases hSize : layout.depth = 0 ∨ m.capacity kind < layout.depth
  · exact .inl ⟨_, (if_neg hResident).trans (if_pos hSize)⟩
  rw [if_neg hResident, if_neg hSize]
  cases hFit : (m.freeList kind).bestFit layout.depth layout.alignment with
  | none =>
      cases m.victims? kind layout.depth layout.alignment with
      | none => exact .inl ⟨_, rfl⟩
      | some victims => exact .inr (.inl ⟨victims, rfl, by simp⟩)
  | some address =>
      simp only [place]
      cases hReserve :
          (m.freeList kind).reserve?
            { start := address, length := layout.depth } with
      | none => exact .inl ⟨_, rfl⟩
      | some l =>
          refine .inr (.inr ⟨address, l, _, rfl, hResident, hSize, rfl,
            hReserve, m.clock_setFreeList kind l, ⟨?_, ?_⟩, rfl⟩)
          · intro hRecorded r hR
            rcases List.mem_append.mp hR with hOld | hNew
            · have hGet := hRecorded r hOld
              rw [List.getElem?_append_left
                (List.getElem?_eq_some_iff.mp hGet).1]
              exact hGet
            · rcases List.mem_singleton.mp hNew with rfl
              exact List.getElem?_concat_length
          · exact fun _ b hMem => ⟨b, List.mem_append_left _ hMem, rfl⟩

/- A request for room leads to no eviction yet. -/
theorem allocate_calm :
    Ensures (allocate t name layout kind) m (fun _ => True)
      (fun _ m' => m.Calm m') := by
  unfold Ensures
  rcases allocate_cases m t name layout kind with
    ⟨e, hRun⟩ | ⟨victims, hRun, -⟩ |
      ⟨address, l, m', hRun, -, -, -, -, hClock, hRemembers, hHistory⟩
  · rw [hRun]
    trivial
  · rw [hRun]
    exact .refl m
  · rw [hRun]
    refine ⟨hClock, ?_, hRemembers⟩
    intro b hMem hSpilled
    rw [hHistory] at hMem
    rcases List.mem_append.mp hMem with hOld | hNew
    · exact hOld
    · rcases List.mem_singleton.mp hNew with rfl
      cases hSpilled

/- A request that fits is not answered with victims. -/
theorem allocate_of_fits
    (t : TensorId)
    (name : String)
    (hFits : m.Fits layout kind) :
    Ensures (allocate t name layout kind) m (fun _ => True)
      (fun result m' => ∃ address, result = .placed address ∧
        allocate t name layout kind m = .ok (.placed address) m' ∧
        .opened t kind address layout.depth m.clock ∈ m'.history) := by
  unfold Ensures
  rcases allocate_cases m t name layout kind with
    ⟨e, hRun⟩ | ⟨victims, -, hTight⟩ |
      ⟨address, l, m', hRun, -, -, -, -, -, -, hHistory⟩
  · rw [hRun]
    trivial
  · exact absurd hFits hTight
  · rw [hRun]
    exact ⟨address, rfl, rfl, by simp [hHistory]⟩

/- A place is found by the free regions and the tensors alone. -/
theorem SameRoom.placed
    {address : Nat}
    (hRoom : m.SameRoom m')
    (hPlaced : allocate t name layout kind m' = .ok (.placed address) m'') :
    ∃ after, allocate t name layout kind m = .ok (.placed address) after := by
  rcases allocate_cases m' t name layout kind with
    ⟨e, hRun⟩ | ⟨victims, hRun, -⟩ |
      ⟨found, l, after, hRun, hAbsent, hSize, hFit, hReserve, -, -⟩
  · cases hRun.symm.trans hPlaced
  · cases hRun.symm.trans hPlaced
  · cases hRun.symm.trans hPlaced
    rw [hRoom.resident_iff] at hAbsent
    rw [hRoom.lists] at hSize hFit hReserve
    have hCapacity :
        ¬ (layout.depth = 0 ∨ m.capacity kind < layout.depth) := hSize
    simp only [allocate, if_neg hAbsent, if_neg hCapacity, hFit, place,
      hReserve]
    exact ⟨_, rfl⟩

end Allocate

end Memory

------------------------------------------------------------
-- Runs
------------------------------------------------------------

namespace Run

variable {run run' run'' : Run}

/- A run with other memories, without a new eviction. -/
def Touches (run run' : Run) : Prop :=
  ∃ m, run.bench.memory.Calm m ∧ run' = run.setMemory m

theorem Touches.refl (run : Run) : run.Touches run :=
  ⟨run.bench.memory, .refl _, rfl⟩

theorem Touches.trans
    (hFirst : run.Touches run')
    (hSecond : run'.Touches run'') :
    run.Touches run'' := by
  rcases hFirst with ⟨m, hCalm, rfl⟩
  rcases hSecond with ⟨m', hCalm', rfl⟩
  exact ⟨m', hCalm.trans hCalm', rfl⟩

/- The pending operations after one was taken, if it is one of them. -/
def pendingAfter
    (run : Run) : Option Nat → List (Nat × Operation)
| none => run.pending
| some i => run.pending.eraseP (fun p => p.1 = i)

/- One operation is committed, without an eviction. -/
structure Enters
    (run : Run)
    (op : Operation)
    (origin : Option Nat)
    (run' : Run) : Prop where
  committed :
    ∃ c, c.operation = op ∧ c.origin = origin ∧
      run'.committed = c :: run.committed
  pending : run'.pending = run.pendingAfter origin
  memory : run.bench.memory.Calm run'.bench.memory

end Run

namespace Commit

variable {run : Run} {op : Operation} {origin : Option Nat}
variable {anchor : Nat}

/- An action on the memories without an eviction touches a run. -/
theorem onMemory_touches
    {α : Type}
    {action : Memory.Action α}
    (hAction :
      Ensures action run.bench.memory (fun _ => True)
        (fun _ m => run.bench.memory.Calm m)) :
    Ensures (onMemory action) run (fun _ => True)
      (fun _ run' => run.Touches run') :=
  onMemory_ensures hAction (fun _ _ => trivial)
    (fun _ m hCalm => ⟨m, hCalm, rfl⟩)

theorem forM_touches
    {α : Type}
    {f : α → Commit PUnit}
    (hEach :
      ∀ a run, Ensures (f a) run (fun _ => True)
        (fun _ run' => run.Touches run'))
    (l : List α) :
    Ensures (l.forM f) run (fun _ => True)
      (fun _ run' => run.Touches run') := by
  refine Ensures.forM (fun _ run' => run.Touches run') (.refl run) ?_
  intro a _ run₁ hTouches
  refine (hEach a run₁).weaken ?_
  exact fun _ run₂ hTouches₂ => hTouches.trans hTouches₂

theorem releaseUnread_touches
    (t : TensorId)
    (run : Run) :
    Ensures (releaseUnread t) run (fun _ => True)
      (fun _ run' => run.Touches run') := by
  unfold releaseUnread
  simp only [ensures_bind, ensures_get]
  split
  case isTrue =>
    simp only [ensures_bind, ensures_pure]
    exact onMemory_touches Memory.free_calm
  case isFalse => exact .refl run

theorem noteNextUse_touches
    (t : TensorId)
    (run : Run) :
    Ensures (noteNextUse t) run (fun _ => True)
      (fun _ run' => run.Touches run') := by
  simp only [noteNextUse, modifyMemory, ensures_bind, ensures_get,
    ensures_modify]
  exact ⟨run.bench.memory.setNextUse t (run.nextUse? t),
    ⟨rfl, fun _ hMem _ => hMem,
      Memory.remembers_modifyResident (fun _ => rfl) (fun _ => rfl)⟩, rfl⟩

/- What is settled leaves the committed operations as they are. -/
theorem settle_touches :
    Ensures (settle op origin) run (fun _ => True)
      (fun _ run' => run'.committed = run.committed ∧
        run'.pending = run.pendingAfter origin ∧
        run.bench.memory.Calm run'.bench.memory) := by
  -- The last two steps touch the run that the first one leaves.
  have hLater :
      ∀ run₁ : Run,
        Ensures (do
          op.writes.toList.forM releaseUnread
          (op.reads ++ op.writes.toList).forM noteNextUse) run₁
          (fun _ => True) (fun _ run' => run₁.Touches run') := by
    intro run₁
    refine (forM_touches releaseUnread_touches _).bind ?_
    intro _ run₂ hTouches₂
    refine (forM_touches noteNextUse_touches _).weaken ?_
    exact fun _ run₃ hTouches₃ => hTouches₂.trans hTouches₃
  unfold settle
  cases origin with
  | none =>
      refine (hLater run).weaken ?_
      rintro _ run' ⟨m, hCalm, rfl⟩
      exact ⟨rfl, rfl, hCalm⟩
  | some i =>
      simp only [ensures_bind]
      change Ensures
        ((retire op i >>= fun _ => op.reads.forM releaseUnread) >>= fun _ =>
          pure ()) run (fun _ => True) _
      simp only [retire, ensures_bind, ensures_ask, ensures_modify,
        ensures_pure]
      apply Yields.of_forall
      intro cycles _
      refine (forM_touches releaseUnread_touches _).weaken ?_
      intro _ run₁ hTouches₁
      refine ensures_bind.mp ((hLater run₁).weaken ?_)
      intro _ run' hTouches'
      rcases hTouches₁.trans hTouches' with ⟨m, hCalm, rfl⟩
      exact ⟨Ledger.committed_retire _ i, Ledger.pending_retire _ i, hCalm⟩

theorem checkConflict_keeps :
    Ensures (checkConflict anchor op) run (fun _ => True)
      (fun _ run' => run' = run) := by
  unfold checkConflict
  simp only [ensures_bind, ensures_get]
  split
  case h_1 => rfl
  case h_2 =>
    split
    case h_1 => rfl
    case h_2 => trivial

theorem emit_appends :
    Ensures (emit op origin anchor) run (fun _ => True)
      (fun _ run' => ∃ e cycles,
        run' = run.append op origin e cycles) := by
  unfold emit
  simp only [ensures_bind, ensures_ask]
  apply Yields.of_forall
  intro e _
  refine checkConflict_keeps.weaken ?_
  rintro _ run₁ rfl
  apply Yields.of_forall
  intro cycles _
  exact ⟨e, cycles, rfl⟩

/- An operation is entered in the run in which its result is placed. -/
theorem finish_enters
    (run : Run)
    (op : Operation)
    (origin : Option Nat)
    (anchor : Nat)
    (pins : List TensorId) :
    Ensures (finish op origin anchor pins) run (fun _ => True)
      (fun _ run' => run.Enters op origin run') := by
  refine emit_appends.bind ?_
  rintro _ run₁ ⟨e, cycles, rfl⟩
  refine (forM_touches
    (fun t _ => onMemory_touches Memory.unpin_calm) _).bind ?_
  rintro _ run₂ ⟨m, hCalm, rfl⟩
  refine settle_touches.weaken ?_
  rintro _ run₃ ⟨hCommitted, hPending, hCalm'⟩
  refine ⟨⟨_, rfl, rfl, hCommitted⟩, ?_, hCalm.trans hCalm'⟩
  rw [hPending]
  cases origin <;> rfl

/-
  An operation is committed after its result is placed. One
  condition holds while its operands are pinned and another one
  after that.
-/
theorem perform_enters
    {place : TensorId → Commit Unit}
    {kept : List TensorId}
    {Placed : Run → Prop}
    (Pinning : Run → Prop)
    (hClock :
      Pinning (run.setMemory (run.bench.memory.setClock run.position)))
    (hPin :
      ∀ run₁ m, Pinning run₁ → run₁.bench.memory.Calm m →
        run₁.bench.memory.SameRoom m → Pinning (run₁.setMemory m))
    (hPlace :
      ∀ run₁, Pinning run₁ →
        Ensures (op.writes.toList.forM place) run₁ (fun _ => True)
          (fun _ run₂ => Placed run₂)) :
    Ensures (Asking.perform place op origin anchor kept) run (fun _ => True)
      (fun _ run' => ∃ run₁, Placed run₁ ∧ run₁.Enters op origin run') := by
  unfold Asking.perform
  simp only [monadLift_self, ensures_bind, ensures_setClock]
  have hPins :
      Ensures
        ((op.reads ++ kept).forM (fun t => onMemory (Memory.pin t)))
        (run.setMemory (run.bench.memory.setClock run.position))
        (fun _ => True) (fun _ run₁ => Pinning run₁) := by
    refine Ensures.forM (fun _ run₁ => Pinning run₁) hClock ?_
    intro t _ run₁ hPinning
    refine onMemory_ensures Memory.pin_calm (fun _ _ => trivial) ?_
    exact fun _ m hBoth => hPin run₁ m hPinning hBoth.1 hBoth.2
  refine hPins.weaken ?_
  intro _ run₁ hPinning
  refine (hPlace run₁ hPinning).weaken ?_
  intro _ run₂ hPlaced
  exact (finish_enters run₂ op origin anchor _).weaken
    (fun _ _ hEnters => ⟨run₂, hPlaced, hEnters⟩)

end Commit

------------------------------------------------------------
-- Disturbances
------------------------------------------------------------

/-
  What the scheduler adds before an operation of the program:
  operations of its own, and evictions that are marked with the
  positions from the start on.
-/
structure Run.Injects
    (start run : Run) : Prop where
  pending : run.pending = start.pending
  added :
    ∃ ops, run.committed = ops ++ start.committed ∧
      ∀ c ∈ ops, c.origin = none ∧ c.operation.isMove = true
  marked :
    ∀ b ∈ run.bench.memory.history, b.spilled = true →
      b ∈ start.bench.memory.history ∨
        ∃ p ∈ b.releasedAt, start.position ≤ p ∧ p ≤ run.position
  recorded : start.bench.memory.Recorded → run.bench.memory.Recorded

namespace Run.Injects

variable {start run run' : Run}

theorem refl (start : Run) : start.Injects start :=
  ⟨rfl, ⟨[], rfl, by simp⟩, fun _ hMem _ => .inl hMem, fun hOld => hOld⟩

section

variable (hInjects : start.Injects run)
include hInjects

theorem position_le :
    start.position ≤ run.position := by
  rcases hInjects.added with ⟨ops, hCommitted, -⟩
  unfold position
  rw [hCommitted, List.length_append]
  omega

/- Evictions that are new are marked with a position from the start on. -/
theorem setMemory
    {m : Memory}
    (hRecorded : run.bench.memory.Recorded → m.Recorded)
    (hMarked :
      ∀ b ∈ m.history, b.spilled = true →
        b ∈ run.bench.memory.history ∨
          ∃ p ∈ b.releasedAt, start.position ≤ p ∧ p ≤ run.position) :
    start.Injects (run.setMemory m) := by
  refine ⟨hInjects.pending, hInjects.added, ?_,
    fun hOld => hRecorded (hInjects.recorded hOld)⟩
  intro b hMem hSpilled
  rcases hMarked b hMem hSpilled with hOld | hNew
  · exact hInjects.marked b hOld hSpilled
  · exact .inr hNew

theorem touches
    (hTouches : run.Touches run') :
    start.Injects run' := by
  rcases hTouches with ⟨m, hCalm, rfl⟩
  exact hInjects.setMemory hCalm.remembers.recorded
    (fun b hMem hSpilled => .inl (hCalm.marked b hMem hSpilled))

theorem setClock
    (position : Nat) :
    start.Injects (run.setMemory (run.bench.memory.setClock position)) :=
  hInjects.setMemory (fun hOld => hOld) (fun _ hMem _ => .inl hMem)

/- An operation that has no place in the program is added. -/
theorem enter
    {op : Operation}
    (hEnters : run.Enters op none run')
    (hMove : op.isMove = true) :
    start.Injects run' := by
  rcases hEnters.committed with ⟨c, rfl, hOrigin, hCommitted⟩
  rcases hInjects.added with ⟨ops, hOps, hAdded⟩
  have hNext : run'.position = run.position + 1 := by
    unfold position
    rw [hCommitted, List.length_cons]
  constructor
  case pending => exact hEnters.pending.trans hInjects.pending
  case added =>
    refine ⟨c :: ops, by rw [hCommitted, hOps]; rfl, ?_⟩
    exact List.forall_mem_cons.mpr ⟨⟨hOrigin, hMove⟩, hAdded⟩
  case marked =>
    intro b hMem hSpilled
    rcases hInjects.marked b (hEnters.memory.marked b hMem hSpilled)
        hSpilled with hOld | ⟨p, hP, hFrom, hTo⟩
    · exact .inl hOld
    · exact .inr ⟨p, hP, hFrom, by omega⟩
  case recorded =>
    exact fun hOld =>
      hEnters.memory.remembers.recorded (hInjects.recorded hOld)

end

end Run.Injects

namespace Commit

variable {start run : Run} {op : Operation} {anchor : Nat}
variable {t : TensorId}

/- An eviction at a position from the start on. -/
theorem spill_injects
    (hInjects : start.Injects run)
    (hFrom : start.position ≤ run.bench.memory.clock)
    (hTo : run.bench.memory.clock ≤ run.position) :
    Ensures (onMemory (Memory.spill t)) run (fun _ => True)
      (fun _ run' => start.Injects run') := by
  refine onMemory_ensures Memory.spill_marks (fun _ _ => trivial) ?_
  rintro _ m ⟨hRemembers, hMarks⟩
  refine hInjects.setMemory hRemembers.recorded ?_
  intro b hMem hSpilled
  rcases hMarks b hMem hSpilled with hOld | hNow
  · exact .inl hOld
  · exact .inr ⟨_, hNow, hFrom, hTo⟩

theorem reserveSpill_keeps :
    Ensures (reserveSpill t) run (fun _ => True)
      (fun _ run' => ∃ bench, run' = { run with bench } ∧
        bench.memory = run.bench.memory) := by
  unfold reserveSpill Workbench.reserveSlot
  simp only [ensures_bind, ensures_get]
  cases run.bench.tensors.fetch t with
  | error e => trivial
  | ok tensor =>
      dsimp only
      cases run.bench.dram.allocate .dram0 tensor.layout.depth with
      | error overflow => trivial
      | ok found => exact ⟨_, rfl, rfl⟩

section

variable (hInjects : start.Injects run)
include hInjects

/- A tensor leaves, stored first by an operation that is added. -/
theorem evict_injects :
    Ensures (evict anchor t) run (fun _ => True)
      (fun _ run' => start.Injects run') := by
  unfold evict fetch
  simp only [ensures_bind, ensures_ask]
  apply Yields.of_forall
  intro tensor _
  split
  case isFalse =>
    simp only [ensures_bind, ensures_setClock, ensures_pure]
    exact spill_injects (hInjects.setClock run.position)
      hInjects.position_le (Nat.le_refl _)
  case isTrue =>
    simp only [ensures_bind, ensures_pure]
    refine reserveSpill_keeps.weaken ?_
    rintro _ run₁ ⟨bench, rfl, hMemory⟩
    have hInjects₁ : start.Injects { run with bench } := by
      refine ⟨hInjects.pending, hInjects.added, ?_, ?_⟩
      · rw [hMemory]
        exact hInjects.marked
      · rw [hMemory]
        exact hInjects.recorded
    -- The clock stays where it was set while the tensor is stored.
    let Stored : Run → Prop := fun run₂ =>
      start.Injects run₂ ∧ run₂.bench.memory.clock = run.position ∧
        run₂.position = run.position
    have hStore :
        Ensures
          (Asking.perform (fun _ => return ()) (.spill t) none anchor [] :
            Commit Unit)
          { run with bench } (fun _ => True)
          (fun _ run' => ∃ run₂, Stored run₂ ∧
            run₂.Enters (.spill t) none run') := by
      refine perform_enters Stored
        ⟨hInjects₁.setClock _, rfl, rfl⟩ ?_ ?_
      · rintro run₂ m ⟨hInjects₂, hClock₂, hPosition₂⟩ hCalm -
        exact ⟨hInjects₂.touches ⟨m, hCalm, rfl⟩,
          hCalm.clock.trans hClock₂, hPosition₂⟩
      · exact fun run₂ hStored => hStored
    refine hStore.weaken ?_
    rintro _ run₃ ⟨run₂, ⟨hInjects₂, hClock₂, hPosition₂⟩, hEnters⟩
    have hClock₃ : run₃.bench.memory.clock = run.position :=
      hEnters.memory.clock.trans hClock₂
    rcases hEnters.committed with ⟨c, -, -, hCommitted⟩
    have hPosition₃ : run₃.position = run₂.position + 1 := by
      unfold Run.position
      rw [hCommitted, List.length_cons]
    refine spill_injects (hInjects₂.enter hEnters rfl) ?_ ?_
    · rw [hClock₃]
      exact hInjects.position_le
    · omega

/- A tensor is placed after evictions. -/
theorem placeWithin_injects
    {rounds : Nat} :
    Ensures (placeWithin anchor t rounds) run (fun _ => True)
      (fun _ run' => start.Injects run') := by
  induction rounds generalizing run with
  | zero =>
      unfold placeWithin Asking.placeWithin fetch
      simp only [monadLift_self, ensures_bind, ensures_ask, ensures_get,
        ensures_throw]
      exact Yields.of_forall (fun _ _ => trivial)
  | succ rounds ih =>
      unfold placeWithin Asking.placeWithin fetch
      simp only [monadLift_self, ensures_bind, ensures_ask]
      apply Yields.of_forall
      intro tensor _
      refine (onMemory_touches Memory.allocate_calm).weaken ?_
      intro result run₁ hTouches
      have hInjects₁ := hInjects.touches hTouches
      cases result with
      | placed address => exact hInjects₁
      | spill kind victims =>
          have hEvictions :
              Ensures (victims.forM (evict anchor)) run₁ (fun _ => True)
                (fun _ run₂ => start.Injects run₂) :=
            Ensures.forM (fun _ run₂ => start.Injects run₂) hInjects₁
              (fun _ _ run₂ hInjects₂ => evict_injects hInjects₂)
          simp only [ensures_bind, ensures_setClock]
          refine hEvictions.weaken ?_
          intro _ run₂ hInjects₂
          exact ih (hInjects₂.setClock run₂.position)

/- An operation is committed after what the scheduler adds. -/
theorem operation_injects
    {origin : Option Nat}
    {kept : List TensorId} :
    Ensures (operation op origin anchor kept) run (fun _ => True)
      (fun _ run' => ∃ run₁, start.Injects run₁ ∧
        run₁.Enters op origin run') := by
  refine perform_enters (start.Injects ·)
    (hInjects.setClock run.position) ?_ ?_
  · exact fun run₁ m hInjects₁ hCalm _ =>
      hInjects₁.touches ⟨m, hCalm, rfl⟩
  · intro run₁ hInjects₁
    refine Ensures.forM (fun _ run₂ => start.Injects run₂) hInjects₁ ?_
    intro u _ run₂ hInjects₂
    unfold Asking.placeResult
    simp only [monadLift_self, ensures_bind, ensures_get]
    exact placeWithin_injects hInjects₂

theorem bringBack_injects
    {reads : List TensorId} :
    Ensures (bringBack anchor reads t) run (fun _ => True)
      (fun _ run' => start.Injects run') := by
  unfold bringBack Asking.bringBack
  simp only [monadLift_self, ensures_bind, ensures_get]
  split
  case isFalse => exact hInjects
  case isTrue =>
    refine (operation_injects hInjects).weaken ?_
    rintro _ run' ⟨run₁, hInjects₁, hEnters⟩
    exact hInjects₁.enter hEnters rfl

end

end Commit

------------------------------------------------------------
-- Pending Operations
------------------------------------------------------------

namespace Run

/- The pending operations are those of a program that are not committed. -/
def Lists
    (program : List Operation)
    (run : Run) : Prop :=
  ∀ i op, (i, op) ∈ run.pending ↔
    program[i]? = some op ∧ ∀ c ∈ run.committed, c.origin ≠ some i

namespace Lists

variable {program : List Operation} {run run' : Run}

theorem start
    (bench : Workbench)
    (program : List Operation)
    (backlog : UnitCycles) :
    (Run.start bench program backlog).Lists program := by
  intro i op
  have hMem :
      (i, op) ∈ (View.start bench program).pending ↔
        program[i]? = some op :=
    View.mem_pending_start
  change (i, op) ∈ (View.start bench program).pending ↔ _
  simp [hMem, Run.start, Ledger.start]

/- One operation is pending at a place. -/
theorem eq_of_mem
    {i : Nat}
    {op op' : Operation}
    (hLists : run.Lists program)
    (hMem : (i, op) ∈ run.pending)
    (hMem' : (i, op') ∈ run.pending) :
    op' = op := by
  have hGet := ((hLists i op).mp hMem).1
  have hGet' := ((hLists i op').mp hMem').1
  exact Option.some.inj (hGet'.symm.trans hGet)

/- What the scheduler adds has no place in the program. -/
theorem injects
    (hLists : run.Lists program)
    (hInjects : run.Injects run') :
    run'.Lists program := by
  rcases hInjects.added with ⟨ops, hOps, hAdded⟩
  intro i op
  rw [hInjects.pending, hLists _ _, hOps, List.forall_mem_append]
  have hNone : ∀ c ∈ ops, c.origin ≠ some i := by
    intro c hC hOrigin
    cases (hAdded c hC).1.symm.trans hOrigin
  rw [and_iff_right hNone]

/- An operation of the program is committed. -/
theorem enter
    {i : Nat}
    {op : Operation}
    (hLists : run.Lists program)
    (hEnters : run.Enters op (some i) run') :
    run'.Lists program := by
  rcases hEnters.committed with ⟨c, -, hOrigin, hCommitted⟩
  intro k op'
  rw [hEnters.pending, pendingAfter,
    View.mem_eraseP_place run.agrees.sorted,
    hLists _ _, hCommitted, List.forall_mem_cons, hOrigin, and_assoc]
  have hOther : k ≠ i ↔ some i ≠ some k := by
    rw [Ne, Ne, Option.some.injEq, eq_comm]
  rw [hOther, and_comm (b := some i ≠ some k)]

end Lists

end Run

------------------------------------------------------------
-- Clean Commitments
------------------------------------------------------------

namespace Run

variable {run : Run} {op : Operation}

/- Nothing was committed or evicted. -/
structure Quiet (run run' : Run) : Prop where
  pending : run'.pending = run.pending
  committed : run'.committed = run.committed
  marked :
    ∀ b ∈ run'.bench.memory.history, b.spilled = true →
      b ∈ run.bench.memory.history
  recorded : run.bench.memory.Recorded → run'.bench.memory.Recorded

theorem Quiet.setMemory
    {run' : Run}
    {m : Memory}
    (hQuiet : run.Quiet run')
    (hCalm : run'.bench.memory.Calm m) :
    run.Quiet (run'.setMemory m) :=
  ⟨hQuiet.pending, hQuiet.committed,
    fun b hMem hSpilled =>
      hQuiet.marked b (hCalm.marked b hMem hSpilled) hSpilled,
    fun hOld => hCalm.remembers.recorded (hQuiet.recorded hOld)⟩

/-
  A tensor is placed where the memories have room for it as they
  are.
-/
def Places
    (run : Run)
    (t : TensorId)
    (run' : Run) : Prop :=
  ∃ tensor address m,
    run.bench.tensors.fetch t = .ok tensor ∧
      Memory.allocate t tensor.name tensor.layout tensor.kind
        run.bench.memory = .ok (.placed address) m ∧
      ∃ b ∈ run'.bench.memory.history,
        b.tensor = t ∧ b.kind = tensor.kind ∧ b.address = address ∧
          b.size = tensor.layout.depth ∧ b.allocatedAt = run.position

theorem Places.remembers
    {run₁ run₂ : Run}
    {t : TensorId}
    (hPlaces : run.Places t run₁)
    (hRecorded : run₁.bench.memory.Recorded)
    (hRemembers : run₁.bench.memory.Remembers run₂.bench.memory) :
    run.Places t run₂ := by
  rcases hPlaces with ⟨tensor, address, m, hFetch, hOk, b, hMem, hPlace⟩
  rcases hRemembers.bindings hRecorded b hMem with ⟨b', hMem', hSame⟩
  rw [hSame.place_iff] at hPlace
  exact ⟨tensor, address, m, hFetch, hOk, b', hMem', hPlace⟩

/-
  An operation is committed with its operands on the chip, and
  its result is placed at once. Nothing is evicted.
-/
structure Clean
    (run : Run)
    (op : Operation)
    (run' : Run) : Prop where
  resident : ∀ t ∈ op.reads, run.bench.memory.IsResident t
  places : ∀ t ∈ op.writes, run.Places t run'
  marked :
    ∀ b ∈ run'.bench.memory.history, b.spilled = true →
      b ∈ run.bench.memory.history

theorem commitsCleanly_eq_true
    {overtaken : List (Nat × Operation)}
    (hClean : run.commitsCleanly overtaken op = .ok true) :
    (∀ t ∈ op.reads, run.bench.memory.IsResident t) ∧
      ∀ t ∈ op.writes, ∃ tensor, run.bench.tensors.fetch t = .ok tensor ∧
        run.bench.memory.Fits tensor.layout tensor.kind := by
  unfold commitsCleanly at hClean
  split at hClean
  case isTrue => cases hClean
  case isFalse hInputs =>
    rw [Decidable.not_not] at hInputs
    refine ⟨fun t hMem => of_decide_eq_true
      (List.all_eq_true.mp hInputs t hMem), ?_⟩
    intro t hWrites
    rw [Option.mem_def.mp hWrites] at hClean
    dsimp only at hClean
    cases hFetch : run.bench.tensors.fetch t with
    | error e =>
        rw [hFetch] at hClean
        cases hClean
    | ok tensor =>
        refine ⟨tensor, rfl, ?_⟩
        by_contra hTight
        rw [hFetch] at hClean
        change (if ¬ run.bench.memory.Fits tensor.layout tensor.kind then
          pure false else _ : Except CompileError Bool) = .ok true at hClean
        rw [if_pos hTight] at hClean
        cases hClean

end Run

namespace Commit

variable {run : Run} {op : Operation} {anchor : Nat} {t : TensorId}

/- A result that fits is placed without an eviction. -/
theorem placeResult_quiet
    {run₁ : Run}
    {tensor : Tensor}
    (hQuiet : run.Quiet run₁)
    (hTensors : run₁.bench.tensors = run.bench.tensors)
    (hRoom : run.bench.memory.SameRoom run₁.bench.memory)
    (hClock : run₁.bench.memory.clock = run.position)
    (hFetch : run.bench.tensors.fetch t = .ok tensor)
    (hFits : run.bench.memory.Fits tensor.layout tensor.kind) :
    Ensures (placeResult anchor t) run₁ (fun _ => True)
      (fun _ run₂ => run.Quiet run₂ ∧ run.Places t run₂) := by
  have hFits₁ : run₁.bench.memory.Fits tensor.layout tensor.kind := by
    unfold Memory.Fits
    rw [hRoom.lists]
    exact hFits
  have hPlaces :
      Ensures
        (Memory.allocate t tensor.name tensor.layout tensor.kind)
        run₁.bench.memory (fun _ => True)
        (fun result m => run₁.bench.memory.Calm m ∧
          run.Places t (run₁.setMemory m) ∧
          ∃ address, result = .placed address) := by
    have hFit := Memory.allocate_of_fits t tensor.name hFits₁
    cases hRun :
        Memory.allocate t tensor.name tensor.layout tensor.kind
          run₁.bench.memory with
    | error e m =>
        unfold Ensures
        rw [hRun]
        trivial
    | ok result m =>
        rcases hFit.of_ok hRun with ⟨address, rfl, hPlaced, hMem⟩
        rcases hRoom.placed hPlaced with ⟨after, hOffer⟩
        unfold Ensures
        rw [hRun]
        exact ⟨Memory.allocate_calm.of_ok hRun,
          ⟨tensor, address, after, hFetch, hOffer, _, hMem, rfl, rfl, rfl,
            rfl, hClock⟩,
          address, rfl⟩
  unfold placeResult Asking.placeResult
  simp only [monadLift_self, ensures_bind, ensures_get]
  unfold Asking.placeWithin fetch
  simp only [monadLift_self, ensures_bind, ensures_ask, hTensors, hFetch]
  refine onMemory_ensures hPlaces (fun _ _ => trivial) ?_
  rintro _ m ⟨hCalm, hPlaces, address, rfl⟩
  exact ⟨hQuiet.setMemory hCalm, hPlaces⟩

/- An operation that fits is committed alone. -/
theorem operation_quiet
    {origin : Option Nat}
    {kept : List TensorId}
    (hFits :
      ∀ t ∈ op.writes, ∃ tensor, run.bench.tensors.fetch t = .ok tensor ∧
        run.bench.memory.Fits tensor.layout tensor.kind) :
    Ensures (operation op origin anchor kept) run (fun _ => True)
      (fun _ run' => ∃ run₁,
        (run.Quiet run₁ ∧ ∀ t ∈ op.writes, run.Places t run₁) ∧
          run₁.Enters op origin run') := by
  -- The memories have the same room while the operands are pinned.
  let Pinning : Run → Prop := fun run₁ =>
    run.Quiet run₁ ∧ run₁.bench.tensors = run.bench.tensors ∧
      run.bench.memory.SameRoom run₁.bench.memory ∧
      run₁.bench.memory.clock = run.position
  refine perform_enters Pinning ?_ ?_ ?_
  · exact ⟨⟨rfl, rfl, fun _ hMem _ => hMem, fun hOld => hOld⟩, rfl,
      Memory.sameRoom_setClock _ _, rfl⟩
  · rintro run₁ m ⟨hQuiet, hTensors, hRoom, hClock⟩ hCalm hSame
    exact ⟨hQuiet.setMemory hCalm, hTensors, hRoom.trans hSame,
      hCalm.clock.trans hClock⟩
  · rintro run₁ ⟨hQuiet, hTensors, hRoom, hClock⟩
    cases hWrites : op.writes with
    | none => exact ⟨hQuiet, by simp⟩
    | some t =>
        rcases hFits t hWrites with ⟨tensor, hFetch, hFit⟩
        change Ensures (placeResult anchor t >>= fun _ => pure ()) run₁ _ _
        simp only [ensures_bind, ensures_pure]
        refine (placeResult_quiet hQuiet hTensors hRoom hClock hFetch
          hFit).weaken ?_
        rintro _ run₂ ⟨hQuiet₂, hPlaces⟩
        refine ⟨hQuiet₂, ?_⟩
        intro u hU
        cases hU
        exact hPlaces

/- Operands on the chip need not come back. -/
theorem forM_bringBack_of_resident
    {E : CompileError → Prop}
    {reads : List TensorId}
    (hResident : ∀ t ∈ reads, run.bench.memory.IsResident t) :
    Ensures (reads.forM (bringBack anchor reads)) run E
      (fun _ run' => run' = run) := by
  have hRun :
      Ensures (reads.forM (bringBack anchor reads)) run E
        (fun _ run' => run' = run ∧ ∀ t ∈ ([] : List TensorId), t ∈ reads) := by
    refine Ensures.forM
      (fun rest run' => run' = run ∧ ∀ t ∈ rest, t ∈ reads)
      ⟨rfl, fun _ hMem => hMem⟩ ?_
    rintro t rest run₁ ⟨rfl, hRest⟩
    unfold bringBack Asking.bringBack
    simp only [monadLift_self, ensures_bind, ensures_get]
    rw [if_neg (not_not.mpr (hResident t (hRest t List.mem_cons_self)))]
    exact ⟨rfl, fun u hU => hRest u (List.mem_cons_of_mem t hU)⟩
  exact hRun.weaken (fun _ _ hBoth => hBoth.1)

end Commit

------------------------------------------------------------
-- Rounds
------------------------------------------------------------

namespace Run

variable {run : Run}
variable {i : Nat} {op : Operation}

/- An operation that is not the oldest one is ready if it fits. -/
theorem standing_cases
    {oldest : Nat}
    {c : Nat × Operation}
    {s : Standing}
    (hStanding : run.standing oldest c = .ok s)
    (hStands : s ≠ .blocked) :
    c.1 = oldest ∨
      ∃ overtaken, run.commitsCleanly overtaken c.2 = .ok true := by
  by_cases hOldest : c.1 = oldest
  · exact .inl hOldest
  have hJudged :
      ∀ overtaken,
        (do return if ← run.commitsCleanly overtaken c.2 then run.ready c.2
            else .blocked : Except CompileError Standing) = .ok s →
          run.commitsCleanly overtaken c.2 = .ok true := by
    intro overtaken hRun
    cases hClean : run.commitsCleanly overtaken c.2 with
    | error e =>
        rw [hClean] at hRun
        cases hRun
    | ok clean =>
        rw [hClean] at hRun
        cases hRun
        cases clean with
        | true => rfl
        | false => exact absurd rfl hStands
  right
  unfold standing at hStanding
  dsimp only at hStanding
  split at hStanding
  case isTrue =>
    cases hStanding
    exact absurd rfl hStands
  case isFalse =>
    split at hStanding
    case isTrue =>
      split at hStanding
      case isTrue =>
        cases hStanding
        exact absurd rfl hStands
      case isFalse =>
        exact ⟨[], hJudged [] hStanding⟩
    case isFalse =>
      exact ⟨_, hJudged _ hStanding⟩

/- A selected operation is the oldest pending one, or it fits. -/
theorem select_cases
    {window : Nat}
    {oldest : Nat × Operation}
    (hSelect : run.select window oldest = .ok (i, op)) :
    (i, op) ∈ run.pending ∧
      (i = oldest.1 ∨
        ∃ overtaken, run.commitsCleanly overtaken op = .ok true) := by
  have hYields :
      Yields (run.select window oldest) (fun _ => True)
        (fun c => c ∈ run.pending.take window ∧
          ∃ s, s ≠ Standing.blocked ∧ (s ≠ .blocked → c.1 = oldest.1 ∨
            ∃ overtaken, run.commitsCleanly overtaken c.2 = .ok true)) :=
    select_yields_of_standings
      (fun c _ => Yields.of_forall (fun s => standing_cases))
      (fun _ _ => trivial)
  rw [hSelect] at hYields
  rcases hYields with ⟨hVisible, s, hStands, hCases⟩
  exact ⟨List.mem_of_mem_take hVisible, hCases hStands⟩

/-
  One round: an operation of the program is committed, either
  the oldest pending one after what the scheduler adds, or one
  that is committed alone and cleanly. Evictions are marked with
  positions of the round.
-/
structure Round
    (run : Run)
    (i : Nat)
    (op : Operation)
    (run' : Run) : Prop where
  listed : (i, op) ∈ run.pending
  pending : run'.pending = run.pending.eraseP (fun p => p.1 = i)
  recorded : run'.bench.memory.Recorded
  commits :
    ∃ added c,
      run'.schedule.ops = run.schedule.ops ++ (added ++ [c]) ∧
        c.operation = op ∧ c.origin = some i ∧
        (∀ d ∈ added, d.origin = none) ∧
        (∀ b ∈ run'.bench.memory.history, b.spilled = true →
          b ∈ run.bench.memory.history ∨
            ∃ p ∈ b.releasedAt,
              run.position ≤ p ∧ p ≤ run.position + added.length) ∧
        ((run.pending.map Prod.fst).head? = some i ∨
          added = [] ∧ run.Clean op run')

/- The oldest pending operation is committed after disturbances. -/
theorem Injects.round
    {run₁ run' : Run}
    (hRecorded : run.bench.memory.Recorded)
    (hMem : (i, op) ∈ run.pending)
    (hOldest : (run.pending.map Prod.fst).head? = some i)
    (hInjects : run.Injects run₁)
    (hEnters : run₁.Enters op (some i) run') :
    run.Round i op run' := by
  rcases hInjects.added with ⟨ops, hOps, hAdded⟩
  rcases hEnters.committed with ⟨c, hOp, hOrigin, hCommitted⟩
  constructor
  case listed => exact hMem
  case pending =>
    rw [hEnters.pending, pendingAfter, hInjects.pending]
  case recorded =>
    exact hEnters.memory.remembers.recorded (hInjects.recorded hRecorded)
  case commits =>
    refine ⟨ops.reverse, c, ?_, hOp, hOrigin, ?_, ?_, .inl hOldest⟩
    · simp [schedule, hCommitted, hOps]
    · exact fun d hD => (hAdded d (List.mem_reverse.mp hD)).1
    · intro b hB hSpilled
      rcases hInjects.marked b (hEnters.memory.marked b hB hSpilled)
          hSpilled with hOld | ⟨p, hP, hFrom, hTo⟩
      · exact .inl hOld
      · refine .inr ⟨p, hP, hFrom, hTo.trans_eq ?_⟩
        rw [position, position, hOps, List.length_append,
          List.length_reverse, Nat.add_comm]

/- Any other operation is committed alone. -/
theorem Quiet.round
    {run₁ run' : Run}
    (hRecorded : run.bench.memory.Recorded)
    (hMem : (i, op) ∈ run.pending)
    (hReads : ∀ t ∈ op.reads, run.bench.memory.IsResident t)
    (hPlaces : ∀ t ∈ op.writes, run.Places t run₁)
    (hQuiet : run.Quiet run₁)
    (hEnters : run₁.Enters op (some i) run') :
    run.Round i op run' := by
  have hCalm := hEnters.memory
  have hMarked :
      ∀ b ∈ run'.bench.memory.history, b.spilled = true →
        b ∈ run.bench.memory.history :=
    fun b hB hSpilled =>
      hQuiet.marked b (hCalm.marked b hB hSpilled) hSpilled
  have hNow := hQuiet.recorded hRecorded
  have hClean : run.Clean op run' :=
    ⟨hReads, fun t hT => (hPlaces t hT).remembers hNow hCalm.remembers,
      hMarked⟩
  rcases hEnters.committed with ⟨c, hOp, hOrigin, hCommitted⟩
  constructor
  case listed => exact hMem
  case pending => rw [hEnters.pending, pendingAfter, hQuiet.pending]
  case recorded => exact hCalm.remembers.recorded hNow
  case commits =>
    refine ⟨[], c, ?_, hOp, hOrigin, by simp, ?_, .inr ⟨rfl, hClean⟩⟩
    · simp [schedule, hCommitted, hQuiet.committed]
    · exact fun b hB hSpilled => .inl (hMarked b hB hSpilled)

end Run

/- What one round of a scheduler does. -/
theorem Commit.next_round
    {run : Run}
    (window : Nat)
    (hRecorded : run.bench.memory.Recorded) :
    Ensures (next window) run (fun _ => True)
      (fun _ run' => run' = run ∨ ∃ i op, run.Round i op run') := by
  unfold next Asking.next
  simp only [monadLift_self, ensures_bind, ensures_get]
  split
  case h_1 => exact .inl rfl
  case h_2 oldest rest hPending =>
    cases hSelect : run.select window oldest with
    | error e => trivial
    | ok chosen =>
        rcases chosen with ⟨i, op⟩
        rcases Run.select_cases hSelect with
          ⟨hMem, hOldest | ⟨overtaken, hClean⟩⟩
        · have hFirst : (run.pending.map Prod.fst).head? = some i := by
            rw [hPending, hOldest]
            rfl
          have hBack :
              Ensures (op.reads.forM (bringBack i op.reads)) run
                (fun _ => True) (fun _ run₁ => run.Injects run₁) :=
            Ensures.forM (fun _ run₁ => run.Injects run₁) (.refl run)
              (fun _ _ run₁ hInjects => bringBack_injects hInjects)
          refine hBack.bind ?_
          intro _ run₁ hInjects
          refine (operation_injects hInjects).weaken ?_
          rintro _ run' ⟨run₂, hInjects₂, hEnters⟩
          exact .inr ⟨i, op,
            hInjects₂.round hRecorded hMem hFirst hEnters⟩
        · rcases Run.commitsCleanly_eq_true hClean with ⟨hReads, hFits⟩
          refine (forM_bringBack_of_resident hReads).bind ?_
          rintro _ run₁ rfl
          refine (operation_quiet hFits).weaken ?_
          rintro _ run' ⟨run₂, ⟨hQuiet, hPlaces⟩, hEnters⟩
          exact .inr ⟨i, op,
            hQuiet.round hRecorded hMem hReads hPlaces hEnters⟩

end Systolic
