import Systolic.Proofs.Schedule.HighWater
import Systolic.Proofs.Schedule.Order
import Systolic.Proofs.Schedule.Stable

/-
  This file proves that a schedule needs no operations besides
  those of its program if the memories on the chip have room for
  all that the program writes. Every result is then placed at
  once, and what is still to be read stays on the chip.

  Key definitions include:
    * `Task.Roomy`
    * `Run.Undisturbed`

  Key theorems include:
    * `Commit.operation_noShortage`
    * `Run.Undisturbed.next`
    * `Workbench.schedule_never_spills`
-/

namespace Systolic

------------------------------------------------------------
-- Results That Fit
------------------------------------------------------------

/- A request that fits is placed, or refused for another reason. -/
theorem Memory.allocate_refuses
    {m : Memory}
    {layout : VectorLayout}
    {kind : MemoryKind}
    (t : TensorId)
    (name : String)
    (hPos : 0 < layout.depth)
    (hInside : layout.depth ≤ m.capacity kind)
    (hFits : m.Fits layout kind) :
    Ensures (allocate t name layout kind) m Refuses
      (fun result _ => ∃ address, result = .placed address) := by
  have hSize : ¬ (layout.depth = 0 ∨ m.capacity kind < layout.depth) := by
    omega
  rcases Option.isSome_iff_exists.mp hFits with ⟨address, hFit⟩
  unfold Ensures
  simp only [allocate, if_neg hSize, hFit, place]
  by_cases hResident : m.IsResident t
  · rw [if_pos hResident]
    exact ⟨_, rfl⟩
  · rw [if_neg hResident]
    cases (m.freeList kind).reserve?
        { start := address, length := layout.depth } with
    | none => exact ⟨_, rfl⟩
    | some l => exact ⟨address, rfl⟩

/- A tensor can be placed as the memories are. -/
def Run.HasRoom
    (run : Run)
    (t : TensorId) : Prop :=
  ∃ tensor, run.bench.tensors.fetch t = .ok tensor ∧
    0 < tensor.layout.depth ∧
    tensor.layout.depth ≤ run.bench.memory.capacity tensor.kind ∧
    run.bench.memory.Fits tensor.layout tensor.kind

theorem Run.HasRoom.setMemory
    {run : Run}
    {t : TensorId}
    {m : Memory}
    (hRoom : run.HasRoom t)
    (hSame : run.bench.memory.SameRoom m) :
    (run.setMemory m).HasRoom t := by
  rcases hRoom with ⟨tensor, hFetch, hPos, hInside, hFits⟩
  refine ⟨tensor, hFetch, hPos, ?_, ?_⟩
  · change tensor.layout.depth ≤ (m.freeList tensor.kind).capacity
    rw [hSame.lists]
    exact hInside
  · change ((m.freeList tensor.kind).bestFit _ _).isSome = true
    rw [hSame.lists]
    exact hFits

namespace Commit

variable {run : Run} {op : Operation} {anchor : Nat}

theorem placeResult_noShortage
    {t : TensorId}
    (hRoom : run.HasRoom t) :
    Ensures (placeResult anchor t) run (fun e => ¬ e.IsShortage)
      (fun _ _ => True) := by
  rcases hRoom with ⟨tensor, hFetch, hPos, hInside, hFits⟩
  unfold placeResult Asking.placeResult
  simp only [monadLift_self, ensures_bind, ensures_get]
  unfold Asking.placeWithin fetch
  simp only [monadLift_self, ensures_bind, ensures_ask, hFetch]
  refine onMemory_ensures
    (Memory.allocate_refuses t tensor.name hPos hInside hFits)
    (fun _ hRefuses => hRefuses.not_isShortage) ?_
  rintro _ m ⟨address, rfl⟩
  trivial

/- The room for the result stays while the operands are pinned. -/
theorem operation_noShortage
    {origin : Option Nat}
    {kept : List TensorId}
    (hRoom : ∀ t ∈ op.writes, run.HasRoom t) :
    Ensures (operation op origin anchor kept) run
      (fun e => ¬ e.IsShortage) (fun _ _ => True) := by
  unfold operation Asking.operation Asking.perform
  simp only [monadLift_self, ensures_bind, ensures_setClock]
  have hPins :
      Ensures
        ((op.reads ++ kept).forM (fun t => onMemory (Memory.pin t)))
        (run.setMemory (run.bench.memory.setClock run.position))
        (fun e => ¬ e.IsShortage)
        (fun _ run₁ => ∀ t ∈ op.writes, run₁.HasRoom t) := by
    refine Ensures.forM
      (fun _ (run₁ : Run) => ∀ t ∈ op.writes, run₁.HasRoom t)
      (fun t hT => (hRoom t hT).setMemory (Memory.sameRoom_setClock _ _)) ?_
    intro t _ run₁ hRoom₁
    refine onMemory_ensures (Memory.pin_calm.and Memory.pin_refuses)
      (fun _ hBoth => hBoth.2.not_isShortage) ?_
    exact fun _ m hBoth u hU => (hRoom₁ u hU).setMemory hBoth.1.2
  refine hPins.weaken ?_
  intro _ run₁ hRoom₁
  have hPlace :
      Ensures (op.writes.toList.forM (placeResult anchor)) run₁
        (fun e => ¬ e.IsShortage) (fun _ _ => True) := by
    cases hWrites : op.writes with
    | none => trivial
    | some t =>
        exact (placeResult_noShortage (hRoom₁ t hWrites)).bind
          (fun _ _ _ => trivial)
  refine hPlace.weaken ?_
  intro _ run₂ _
  exact keeps_finish Run.stable_true (fun _ hOther => hOther)
    op origin anchor (op.reads ++ kept) run₂ trivial

end Commit

------------------------------------------------------------
-- Undisturbed Runs
------------------------------------------------------------

/-
  A program that can be scheduled, and has room on the chip for
  all that it writes.
-/
structure Task.Roomy
    (task : Task)
    (bench : Workbench) : Prop where
  form : WellFormed task.machine.arraySize bench.tensors task.program
  aligned : bench.tensors.Aligned
  depth_pos :
    ∀ t tensor, bench.tensors.get? t = some tensor →
      0 < tensor.layout.depth
  room :
    ∀ kind,
      bench.tensors.room kind (written task.program) ≤ task.capacity kind
  window_pos : 0 < task.window

theorem Task.Roomy.plain
    {task : Task}
    {bench : Workbench}
    (hRoomy : task.Roomy bench) :
    ∀ op ∈ task.program, op.isMove = false :=
  fun _ hMem => (hRoomy.form.typed hMem).isMove_eq_false

/- A run to which nothing was added and in which nothing was evicted. -/
structure Run.Undisturbed
    (task : Task)
    (bench : Workbench)
    (run : Run) : Prop where
  sound : run.Sound task []
  steps : (Journal.start bench task.program).Steps task run.journal
  awaited : run.view.Awaited
  bare : run.journal.Bare
  unspilled : ∀ b ∈ run.bench.memory.history, b.spilled = false

namespace Run.Undisturbed

variable {task : Task} {bench : Workbench} {run : Run}

section Facts

variable (hRoomy : task.Roomy bench)
variable (hRun : run.Undisturbed task bench)
variable {i : Nat} {op : Operation}

include hRoomy hRun

theorem legal : run.view.Legal task.program := by
  have hSingle := hRoomy.form.singleAssignment
  exact (View.legal_start hSingle bench).steps hSingle hRun.steps.view

/- What every step keeps, and in a bare journal the bindings low. -/
theorem invariant :
    run.view.Accounted task.program ∧ run.view.Evicts ∧
      run.journal.Low bench.tensors := by
  have hSingle := hRoomy.form.singleAssignment
  have hPlain := hRoomy.plain
  have hAll :
      run.journal.view.Accounted task.program ∧
        run.journal.view.Evicts ∧
        (run.journal.Bare → run.journal.Low bench.tensors) := by
    refine Journal.Steps.invariant
      (P := fun j => j.view.Accounted task.program ∧ j.view.Evicts ∧
        (j.Bare → j.Low bench.tensors)) hSingle hRun.steps ?_ ?_
    · exact ⟨View.accounted_start bench task.program,
        View.evicts_start bench task.program,
        fun _ => Journal.low_start bench task.program⟩
    · rintro j j' hLegal ⟨hAccounted, hEvicts, hLow⟩ hStep
      exact ⟨hAccounted.step hSingle hPlain hLegal hStep.view,
        hEvicts.step hLegal hAccounted hStep.view,
        fun hBare => (hLow (hStep.bare hBare)).step hRoomy.aligned
          hRoomy.depth_pos hPlain hLegal hStep hBare⟩
  exact ⟨hAll.1, hAll.2.1, hAll.2.2 hRun.bare⟩

/- An operation that may commit finds its operands on the chip. -/
theorem resident
    (hEligible : run.view.Eligible i op) :
    ∀ t ∈ op.reads, run.bench.memory.IsResident t := by
  rcases hRun.invariant hRoomy with ⟨hAccounted, hEvicts, -⟩
  intro t hReads
  rw [hRun.sound.isResident_iff]
  exact hEvicts.onChip hRoomy.form.singleAssignment
    (hRun.legal hRoomy).toQueued hAccounted hRun.unspilled
    hEligible.pending hReads (hEligible.defined t hReads)

/- A pending operation has room for its result. -/
theorem hasRoom
    (hMem : (i, op) ∈ run.view.pending) :
    ∀ t ∈ op.writes, run.HasRoom t := by
  rcases hRun.invariant hRoomy with ⟨hAccounted, -, hLow⟩
  intro t hWrites
  have hListed :=
    List.mem_of_getElem? ((hRun.legal hRoomy).listed i op hMem)
  rcases (hRoomy.form.typed hListed).get?_mentions t
      (Operation.mem_mentions_of_writes hWrites) with ⟨tensor, hGet⟩
  have hPos := hRoomy.depth_pos t tensor hGet
  rcases hLow.fits hRoomy.aligned hPos hAccounted hMem hWrites hGet
      (hRun.sound.spares tensor.kind) (hRoomy.room tensor.kind) with
    ⟨hInside, hFits⟩
  refine ⟨tensor, ?_, hPos, ?_, hFits⟩
  · have hTensors : run.bench.tensors = bench.tensors := hLow.tensors_eq
    rw [TensorTable.fetch, hTensors, hGet]
  · rw [hRun.sound.capacity]
    exact hInside

/-
  The chosen operation is committed alone, since its operands are
  on the chip and its result fits.
-/
theorem operation
    (hMem : (i, op) ∈ run.view.pending) :
    Ensures (Commit.operation op (some i) i []) run
      (fun e => ¬ e.IsShortage)
      (fun _ run' => run'.journal.Bare ∧
        ∀ b ∈ run'.bench.memory.history, b.spilled = false) := by
  have hRoom := hRun.hasRoom hRoomy hMem
  have hFits :
      ∀ t ∈ op.writes, ∃ tensor, run.bench.tensors.fetch t = .ok tensor ∧
        run.bench.memory.Fits tensor.layout tensor.kind := by
    intro t hT
    rcases hRoom t hT with ⟨tensor, hFetch, -, -, hFits⟩
    exact ⟨tensor, hFetch, hFits⟩
  refine ((Commit.operation_quiet hFits).and
    (Commit.operation_noShortage hRoom)).mono ?_ (fun _ hBoth => hBoth.2)
  rintro _ run' ⟨⟨run₁, ⟨hQuiet, -⟩, hEnters⟩, -⟩
  constructor
  · rcases hEnters.committed with ⟨c, -, hOrigin, hCommitted⟩
    intro d hD
    change d ∈ run'.committed.reverse at hD
    rw [List.mem_reverse, hCommitted, hQuiet.committed] at hD
    rcases List.mem_cons.mp hD with rfl | hOld
    · simp [hOrigin]
    · exact hRun.bare d (List.mem_reverse.mpr hOld)
  · intro b hB
    by_contra hSpilled
    rw [Bool.not_eq_false] at hSpilled
    have hOld := hQuiet.marked b (hEnters.memory.marked b hB hSpilled)
      hSpilled
    cases hSpilled.symm.trans (hRun.unspilled b hOld)

/- A round leaves a run undisturbed. -/
theorem next :
    Ensures (Commit.next task.window) run (fun e => ¬ e.IsShortage)
      (fun _ run' => run'.Undisturbed task bench) := by
  have hSingle := hRoomy.form.singleAssignment
  have hLegal := hRun.legal hRoomy
  have hBare :
      Ensures (Commit.next task.window) run (fun e => ¬ e.IsShortage)
        (fun _ run' => run'.journal.Bare ∧
          ∀ b ∈ run'.bench.memory.history, b.spilled = false) := by
    unfold Commit.next Asking.next
    simp only [monadLift_self, ensures_bind, ensures_get]
    split
    case h_1 => exact ⟨hRun.bare, hRun.unspilled⟩
    case h_2 oldest rest hPending =>
      have hSelect := Run.select_yields hSingle hRun.sound
        hLegal.toQueued hPending hRoomy.window_pos
      have hOther := run.noShortage_select task.window oldest
      cases hChosen : run.select task.window oldest with
      | error e =>
          rw [hChosen] at hOther
          exact hOther
      | ok chosen =>
          rcases chosen with ⟨i, op⟩
          rw [hChosen] at hSelect
          have hResident := hRun.resident hRoomy hSelect.1
          change Ensures
            (op.reads.forM (Commit.bringBack i op.reads) >>= fun _ =>
              Commit.operation op (some i) i []) run _ _
          refine (Commit.forM_bringBack_of_resident hResident).bind ?_
          rintro _ run₁ rfl
          exact hRun.operation hRoomy hSelect.1.pending
  refine ((Commit.next_ensures hSingle hRun.sound hLegal hRun.awaited
    hRoomy.window_pos).and hBare).mono ?_ (fun _ hBoth => hBoth.2)
  rintro _ run' ⟨⟨hSound, hSteps, -, hAwaited⟩, hBare', hUnspilled⟩
  exact ⟨hSound, hRun.steps.trans hSteps, hAwaited, hBare', hUnspilled⟩

end Facts

/- Nothing has happened at the start of a run. -/
theorem start
    (hFresh : bench.Fresh task)
    (backlog : UnitCycles) :
    (Run.start bench task.program backlog).Undisturbed task bench := by
  constructor
  case sound => exact hFresh.sound_start backlog
  case steps =>
    rw [hFresh.journal_start backlog]
    exact .refl
  case awaited => exact hFresh.awaited_start backlog
  case bare => exact fun c hC => nomatch hC
  case unspilled =>
    intro b hB
    change b ∈ bench.memory.history at hB
    rw [hFresh.history] at hB
    cases hB

end Run.Undisturbed

------------------------------------------------------------
-- Schedules
------------------------------------------------------------

namespace Workbench

variable {task : Task} {bench : Workbench} {run : Run}

/- All rounds together leave a run undisturbed. -/
theorem Fresh.rounds_undisturbed
    {lookahead : Nat}
    (hFresh : bench.Fresh task)
    (hRoomy : task.Roomy bench)
    (hWindow : task.window = max lookahead 1)
    (backlog : UnitCycles) :
    Ensures
      (task.program.forM (fun _ => Commit.next (max lookahead 1)) >>=
        fun _ => Commit.audit)
      (Run.start bench task.program backlog) (fun e => ¬ e.IsShortage)
      (fun _ run => run.Undisturbed task bench) := by
  rw [← hWindow]
  have hRounds :
      Ensures (task.program.forM (fun _ => Commit.next task.window))
        (Run.start bench task.program backlog) (fun e => ¬ e.IsShortage)
        (fun _ run => run.Undisturbed task bench) :=
    Ensures.forM (fun _ (run : Run) => run.Undisturbed task bench)
      (.start hFresh backlog) (fun _ _ _ hRun => hRun.next hRoomy)
  refine hRounds.bind ?_
  intro _ run hRun
  unfold Commit.audit
  simp only [ensures_bind, ensures_get, hRun.sound.memory.audit,
    ensures_pure]
  exact hRun

/- An undisturbed schedule commits what the program has. -/
theorem Schedules.perm_of_undisturbed
    (hRoomy : task.Roomy bench)
    (hSchedules : bench.Schedules task run)
    (hRun : run.Undisturbed task bench) :
    (run.schedule.ops.map (·.operation)).Perm task.program := by
  rcases hRun.invariant hRoomy with ⟨hAccounted, -, hLow⟩
  have hDone : run.schedule.ops.map (·.operation) = run.view.done := by
    simp [Run.schedule, Run.view]
  have hPerm := hLow.perm hAccounted
  change (run.view.done ++ run.view.pending.map Prod.snd).Perm _ at hPerm
  rw [hSchedules.pending, List.map_nil, List.append_nil] at hPerm
  rw [hDone]
  exact hPerm

end Workbench

/- A schedule of operations that move nothing counts no moves. -/
theorem Schedule.moves_eq_zero
    {s : Schedule}
    (hPlain : ∀ c ∈ s.ops, c.operation.isMove = false) :
    s.spills = 0 ∧ s.reloads = 0 := by
  unfold spills reloads
  rw [List.countP_eq_zero, List.countP_eq_zero]
  constructor
  · intro c hC hSpill
    have hMove := hPlain c hC
    split at hSpill
    case h_1 hOp => simp [hOp, Operation.isMove] at hMove
    case h_2 => cases hSpill
  · intro c hC hReload
    have hMove := hPlain c hC
    split at hReload
    case h_1 hOp => simp [hOp, Operation.isMove] at hMove
    case h_2 => cases hReload

/- A lowered program with enough room for what it writes is roomy. -/
theorem LowersTo.roomy
    {ν : Type}
    [DecidableEq ν]
    {m : Machine}
    {p : Plan ν}
    {layout : WordLayout}
    {s : Lowering ν}
    (hLowers : LowersTo m p layout s)
    (hLocal :
      s.bench.tensors.room .scratchpad (written s.program) ≤ m.localDepth)
    (hAccumulator :
      s.bench.tensors.room .accumulator (written s.program) ≤
        m.accumulatorDepth)
    (lookahead : Nat) :
    (Task.ofLowering m s lookahead).Roomy s.bench := by
  have hMachine : s.bench.machine = m := hLowers.untouched.machine_eq
  constructor
  case form =>
    have hForm := hLowers.sound.program
    rw [hMachine] at hForm
    exact hForm
  case aligned => exact hLowers.aligned
  case depth_pos => exact fun _ _ hGet => hLowers.depth_pos hGet
  case room =>
    intro kind
    cases kind with
    | scratchpad => exact hLocal
    | accumulator => exact hAccumulator
  case window_pos => exact Nat.lt_of_lt_of_le Nat.one_pos (Nat.le_max_right _ _)

/-
  If both memories have room for all the tensors that a lowered
  program writes, wherever their alignment puts them, then its
  schedule does not fail for lack of room. It evicts nothing, and
  commits the operations of the program and no others.
-/
theorem Workbench.schedule_never_spills
    {ν : Type}
    [DecidableEq ν]
    {net : Network ν}
    {outputs : List String}
    {nodes : List ν}
    {m : Machine}
    {program : List Operation}
    {start bench : Workbench}
    (hStart : ofMachine m = .ok start)
    (hLower : lowerNodes net outputs nodes start = .ok (program, bench))
    (hLocal :
      bench.tensors.room .scratchpad (written program) ≤ m.localDepth)
    (hAccumulator :
      bench.tensors.room .accumulator (written program) ≤
        m.accumulatorDepth)
    (lookahead : Nat) :
    Ensures (schedule program lookahead) bench
      (fun e => e.Admissible m ∧ ¬ e.IsShortage)
      (fun s bench' =>
        s.spills = 0 ∧ s.reloads = 0 ∧
        (∀ b ∈ bench'.memory.history, b.spilled = false) ∧
        (s.ops.map (·.operation)).Perm program) := by
  rcases lowerNodes_ends hStart hLower with
    ⟨plan, layout, low, hLowers, rfl, rfl⟩
  let task := Task.ofLowering m low lookahead
  have hFresh : low.bench.Fresh task :=
    hLowers.sound.ready hLowers.check hLowers.untouched lookahead
  have hRoomy : task.Roomy low.bench :=
    hLowers.roomy hLocal hAccumulator lookahead
  have hNone :
      Ensures (schedule low.program lookahead) low.bench
        (fun e => ¬ e.IsShortage)
        (fun s bench' =>
          s.spills = 0 ∧ s.reloads = 0 ∧
          (∀ b ∈ bench'.memory.history, b.spilled = false) ∧
          (s.ops.map (·.operation)).Perm low.program) := by
    rw [ensures_schedule]
    refine (noShortage_checkProgram _ _ _ _ _ _).weaken ?_
    intro backlog _
    refine ((hFresh.rounds_ensures rfl hRoomy.form.singleAssignment
      backlog).and (hFresh.rounds_undisturbed hRoomy rfl backlog)).mono
      ?_ (fun _ hBoth => hBoth.2)
    rintro _ run ⟨hSchedules, hRun⟩
    have hPerm := hSchedules.perm_of_undisturbed hRoomy hRun
    have hMoves : run.schedule.spills = 0 ∧ run.schedule.reloads = 0 := by
      apply Schedule.moves_eq_zero
      intro c hC
      exact hRoomy.plain _ (hPerm.mem_iff.mp (List.mem_map_of_mem hC))
    exact ⟨hMoves.1, hMoves.2, hRun.unspilled, hPerm⟩
  refine ((schedule_ensures hFresh rfl).and hNone).mono ?_ ?_
  · exact fun _ _ hBoth => hBoth.2
  · exact fun e hBoth => ⟨hBoth.1 trivial, hBoth.2⟩

/-
  A block whose weights are aligned to two vectors, on a machine
  that has room for its tensors and not one vector more.
-/
theorem Workbench.schedule_never_spills_residualBlock :
    ∃ x : Scheduled,
      x.before.memory = .empty 9 4 ∧
      x.before.tensors.room .scratchpad (written x.program) = 9 ∧
      x.before.tensors.room .accumulator (written x.program) = 4 ∧
      schedule x.program 8 x.before = .ok x.schedule x.after ∧
      x.schedule.ops.length = 8 ∧
      x.schedule.spills = 0 ∧ x.schedule.reloads = 0 ∧
      (∀ b ∈ x.after.memory.history, b.spilled = false) ∧
      (x.schedule.ops.map (·.operation)).Perm x.program := by
  let m : Machine :=
    { Machine.standard with
      arraySize := 2, localDepth := 9, accumulatorDepth := 4 }
  have hFacts :
      (scheduleNetwork? residualBlock ["sum"] m 8).map
        (fun x =>
          (x.before.tensors.room .scratchpad (written x.program),
            x.before.tensors.room .accumulator (written x.program),
            x.schedule.ops.length)) =
      some (9, 4, 8) := by
    decide +kernel
  rcases Option.map_eq_some_iff.mp hFacts with ⟨x, hScheduled, hSeen⟩
  simp only [Prod.mk.injEq] at hSeen
  rcases hSeen with ⟨hLocal, hAccumulator, hLength⟩
  rcases scheduleNetwork?_eq_some hScheduled with
    ⟨⟨start, hStart, hLowers⟩, hSchedule⟩
  rcases exists_lowerNodes hLowers with ⟨nodes, hLower⟩
  have hEmpty : x.before.memory = .empty 9 4 :=
    (lowerNetwork_eq_ok hStart hLowers).2
  exact ⟨x, hEmpty, hLocal, hAccumulator, hSchedule, hLength,
    (schedule_never_spills hStart hLower (Nat.le_of_eq hLocal)
      (Nat.le_of_eq hAccumulator) 8).of_ok hSchedule⟩

end Systolic
