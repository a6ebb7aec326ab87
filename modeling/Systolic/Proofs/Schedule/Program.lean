import Systolic.Proofs.Schedule.Select

/-
  This file proves that the schedule of a program is made of
  steps that commit all of its operations, and that a lowered
  program fails for a good reason only.

  Key definitions include:
    * `Workbench.Fresh`

  Key theorems include:
    * `Commit.next_ensures`
    * `Workbench.schedule_ensures`
    * `Workbench.Schedules.invariant`
    * `Workbench.schedules_of_ok`
-/

namespace Systolic

------------------------------------------------------------
-- The Next Operation
------------------------------------------------------------

namespace Commit

variable {task : Task} {run : Run}

/-
  A run in which the operands of an operation come back: those
  that are not awaited are on the chip.
-/
structure Recalls
    (task : Task)
    (j : Journal)
    (reads awaited : List TensorId)
    (run : Run) : Prop where
  sound : run.Sound task []
  steps : j.Steps task run.journal
  pending_eq : run.view.pending = j.view.pending
  present : ∀ t ∈ reads, t ∈ awaited ∨ run.view.OnChip t
  awaited : ∀ t ∈ awaited, t ∈ reads
  read : run.view.Awaited

theorem bringBack_ensures
    {j : Journal}
    {i anchor : Nat}
    {op : Operation}
    {t : TensorId}
    {awaited : List TensorId}
    (hSingle : SingleAssignment task.program)
    (hLegal : j.view.Legal task.program)
    (hEligible : j.view.Eligible i op)
    (hRecalls : Recalls task j op.reads (t :: awaited) run) :
    Ensures (bringBack anchor op.reads t) run task.Tolerates
      (fun _ run' => Recalls task j op.reads awaited run') := by
  have hSound := hRecalls.sound
  have hReads : t ∈ op.reads := hRecalls.awaited t List.mem_cons_self
  have hAwaited : ∀ u ∈ awaited, u ∈ op.reads :=
    fun u hU => hRecalls.awaited u (List.mem_cons_of_mem t hU)
  unfold bringBack Asking.bringBack
  simp only [monadLift_self, ensures_bind, ensures_get]
  split
  case isFalse hResident =>
    have hOn := hSound.isResident_iff.mp (not_not.mp hResident)
    refine { hRecalls with present := ?_, awaited := hAwaited }
    intro u hU
    rcases hRecalls.present u hU with hMem | hThere
    · rcases List.mem_cons.mp hMem with rfl | hRest
      · exact .inr hOn
      · exact .inl hRest
    · exact .inr hThere
  case isTrue hAway =>
    have hNow : run.view.Legal task.program :=
      hLegal.steps hSingle hRecalls.steps.view
    have hMem : (i, op) ∈ run.view.pending := by
      rw [hRecalls.pending_eq]
      exact hEligible.pending
    have hDefined : run.view.Defined t :=
      (View.defined_congr hRecalls.pending_eq t).mpr
        (hEligible.defined t hReads)
    have hOff : ¬ run.view.OnChip t :=
      fun hOn => hAway (hSound.isResident_iff.mpr hOn)
    have hRead : ∀ u ∈ op.reads, ¬ run.view.Unread u :=
      fun u hU hUnread => hUnread (i, op) hMem hU
    have hCopy := (hNow.available (i, op) hMem t hReads hDefined).resolve_left
      hOff
    have hKept :
        ∀ u ∈ op.reads.filter (fun u => run.bench.memory.IsResident u),
          run.view.OnChip u := by
      intro u hU
      have hResident := of_decide_eq_true (List.mem_filter.mp hU).2
      exact hSound.isResident_iff.mp hResident
    refine (reload_ensures hSound hNow hOff hDefined (hRead t hReads)
      hCopy (op.nodup_reads.sublist List.filter_sublist) hKept
      hRecalls.read).weaken ?_
    intro _ run' hRun'
    rcases hRun' with
      ⟨hSound', hSteps, hPending, hBack, hStays, hAwaited'⟩
    constructor
    case sound => exact hSound'
    case steps => exact hRecalls.steps.trans hSteps
    case pending_eq => exact hPending.trans hRecalls.pending_eq
    case awaited => exact hAwaited
    case read => exact hAwaited'
    case present =>
      intro u hU
      rcases hRecalls.present u hU with hWaits | hThere
      · rcases List.mem_cons.mp hWaits with rfl | hRest
        · exact .inr hBack
        · exact .inl hRest
      · right
        refine hStays u ?_ (hRead u hU)
        rw [List.mem_filter]
        exact ⟨hU, decide_eq_true (hSound.isResident_iff.mpr hThere)⟩

/- The next operation of a program commits. -/
theorem next_ensures
    (hSingle : SingleAssignment task.program)
    (hSound : run.Sound task [])
    (hLegal : run.view.Legal task.program)
    (hAwaited : run.view.Awaited)
    (hWindow : 0 < task.window) :
    Ensures (next task.window) run task.Tolerates
      (fun _ run' => run'.Sound task [] ∧
        run.journal.Steps task run'.journal ∧
        run'.view.pending.length = run.view.pending.length - 1 ∧
        run'.view.Awaited) := by
  unfold next Asking.next
  simp only [monadLift_self, ensures_bind, ensures_get]
  split
  case h_1 hNone =>
    refine ⟨hSound, .refl, ?_, hAwaited⟩
    simp [Run.view, hNone]
  case h_2 oldest rest hPending =>
    have hSelect := Run.select_yields hSingle hSound hLegal.toQueued
      hPending hWindow
    cases hChosen : run.select task.window oldest with
    | error e =>
        rw [hChosen] at hSelect
        exact hSelect
    | ok chosen =>
        rcases chosen with ⟨i, op⟩
        rw [hChosen] at hSelect
        rcases hSelect with ⟨hEligible, hVisible⟩
        change Ensures
          (op.reads.forM (bringBack i op.reads) >>= fun _ =>
            operation op (some i) i []) run task.Tolerates _
        have hStart :
            Recalls task run.journal op.reads op.reads run :=
          ⟨hSound, .refl, rfl, fun t hT => .inl hT, fun t hT => hT,
            hAwaited⟩
        refine (Ensures.forM (Recalls task run.journal op.reads) hStart
          (fun t awaited run' hRecalls =>
            bringBack_ensures hSingle hLegal hEligible hRecalls)).bind ?_
        intro _ run₁ hRecalls
        have hNow : run₁.view.Legal task.program :=
          hLegal.steps hSingle hRecalls.steps.view
        have hVisible₁ : (i, op) ∈ run₁.view.pending.take task.window := by
          rw [hRecalls.pending_eq]
          exact hVisible
        have hOldest :
            op.resource = .compute →
              ∀ p ∈ run₁.view.pending, p.2.resource = .compute →
                i ≤ p.1 := by
          rw [hRecalls.pending_eq]
          exact hEligible.oldest
        have hReads : ∀ t ∈ op.reads, run₁.view.OnChip t := by
          intro t hT
          refine (hRecalls.present t hT).resolve_left ?_
          exact List.not_mem_nil
        refine (operation_ensures hRecalls.sound hNow hVisible₁ hOldest
          hReads hRecalls.read).weaken ?_
        intro _ run₂ hRun₂
        rcases hRun₂ with ⟨hSound₂, hSteps₂, hPending₂, hAwaited₂⟩
        refine ⟨hSound₂, hRecalls.steps.trans hSteps₂, ?_, hAwaited₂⟩
        rw [hPending₂, List.length_eraseP_of_mem
          (List.mem_of_mem_take hVisible₁) (by simp), hRecalls.pending_eq]
        rfl

/- Operations commit until none is pending. -/
theorem forM_next_ensures
    {rounds : List Operation}
    (hSingle : SingleAssignment task.program)
    (hSound : run.Sound task [])
    (hLegal : run.view.Legal task.program)
    (hAwaited : run.view.Awaited)
    (hWindow : 0 < task.window)
    (hLength : run.view.pending.length ≤ rounds.length) :
    Ensures (rounds.forM (fun _ => next task.window)) run task.Tolerates
      (fun _ run' => run'.Sound task [] ∧
        run.journal.Steps task run'.journal ∧
        run'.view.pending = [] ∧
        run'.view.Awaited) := by
  induction rounds generalizing run with
  | nil =>
      exact ⟨hSound, .refl,
        List.length_eq_zero_iff.mp (Nat.le_zero.mp hLength), hAwaited⟩
  | cons op rounds ih =>
      refine (next_ensures hSingle hSound hLegal hAwaited hWindow).bind ?_
      intro _ run₁ hRun₁
      rcases hRun₁ with ⟨hSound₁, hSteps₁, hLength₁, hAwaited₁⟩
      rw [List.length_cons] at hLength
      refine (ih hSound₁ (hLegal.steps hSingle hSteps₁.view) hAwaited₁
        (by omega)).weaken ?_
      intro _ run₂ hRun₂
      rcases hRun₂ with ⟨hSound₂, hSteps₂, hRest⟩
      exact ⟨hSound₂, hSteps₁.trans hSteps₂, hRest⟩

end Commit

------------------------------------------------------------
-- Programs
------------------------------------------------------------

/- A program that passes the check assigns each tensor once. -/
theorem checkProgram_yields
    {task : Task}
    {m : Machine}
    {table : TensorTable}
    {n : Nat}
    {before ops : List Operation}
    {i : Nat}
    {defined : List TensorId}
    {backlog : UnitCycles}
    (hBus : task.lowered → 0 < m.busWidth)
    (hForm : task.lowered → WellFormed n table (before ++ ops))
    (hSingle : SingleAssignment before)
    (hDefined : ∀ t, t ∈ defined ↔ t ∈ written before) :
    Yields (checkProgram m table i defined backlog ops) task.Tolerates
      (fun _ => SingleAssignment (before ++ ops)) := by
  induction ops generalizing before i defined backlog with
  | nil =>
      rw [List.append_nil]
      exact hSingle
  | cons op ops ih =>
      have hAdmits : task.lowered → Admits n table before op := by
        intro hLowered
        have hAt := hForm hLowered before.length op (by simp)
        simpa using hAt
      unfold checkProgram
      split
      case h_1 t hFind =>
        have hReads := List.mem_of_find?_eq_some hFind
        have hFresh : t ∉ defined := by
          simpa using List.find?_some hFind
        unfold programFault
        cases op.checkMentions table <;> intro hLowered <;>
          exact absurd ((hDefined t).mpr
            ((hAdmits hLowered).reads_written t hReads)) hFresh
      case h_2 hReads =>
        split
        case h_1 t hAgain =>
          rcases Option.filter_eq_some_iff.mp hAgain with
            ⟨hWrites, hOld⟩
          have hOld : t ∈ defined := of_decide_eq_true hOld
          unfold programFault
          cases op.checkMentions table <;> intro hLowered <;>
            exact absurd ((hDefined t).mp hOld)
              ((hAdmits hLowered).writes_fresh t hWrites)
        case h_2 hWrites =>
          have hKnown :
              task.lowered → ∀ t ∈ op.mentions,
                ∃ tensor, table.get? t = some tensor :=
            fun hLowered => (hAdmits hLowered).typed.get?_mentions
          refine (Task.cycles_yields hBus hKnown).bind ?_
          intro cycles _
          have hPush : SingleAssignment (before ++ [op]) := by
            refine hSingle.push ?_ ?_
            · intro t hT
              have hNot := List.find?_eq_none.mp hReads t hT
              exact (hDefined t).mp (by simpa using hNot)
            · intro t hT hOld
              have hNot := Option.filter_eq_none_iff.mp hWrites t hT
              exact hNot (decide_eq_true ((hDefined t).mpr hOld))
          have hLater :
              task.lowered → WellFormed n table ((before ++ [op]) ++ ops) := by
            rw [List.append_assoc]
            exact hForm
          have hMore :
              ∀ t, t ∈ op.writes.toList ++ defined ↔
                t ∈ written (before ++ [op]) := by
            intro t
            rw [mem_written_push, List.mem_append, hDefined t,
              Option.mem_toList, or_comm]
          have hSame : before ++ op :: ops = (before ++ [op]) ++ ops := by
            simp
          rw [hSame]
          exact ih hLater hPush hMore

/- A workbench whose program is about to be scheduled. -/
structure Workbench.Fresh
    (task : Task)
    (bench : Workbench) : Prop where
  machine_eq : bench.machine = task.machine
  layout_eq : bench.layout = task.layout
  memory : bench.memory.Sound []
  capacity :
    ∀ kind, bench.memory.capacity kind = task.capacity kind
  history : bench.memory.history = []
  lowered : task.lowered → task.Lowered bench.tensors bench.dram

/- What every step of a journal keeps holds after any steps. -/
theorem Journal.Steps.invariant
    {task : Task}
    {bench : Workbench}
    {P : Journal → Prop}
    {final : Journal}
    (hSingle : SingleAssignment task.program)
    (hSteps : (start bench task.program).Steps task final)
    (hStart : P (start bench task.program))
    (hStep :
      ∀ j j', j.view.Legal task.program → P j → j.Step task j' → P j') :
    P final := by
  induction hSteps with
  | refl => exact hStart
  | @tail j j' hBefore hLast ih =>
      have hLegal := (View.legal_start hSingle bench).steps hSingle
        (Journal.Steps.view hBefore)
      exact hStep j j' hLegal ih hLast

/- What is left of a program once it is scheduled. -/
structure Workbench.Schedules
    (task : Task)
    (bench : Workbench)
    (run : Run) : Prop where
  single : SingleAssignment task.program
  steps : (Journal.start bench task.program).Steps task run.journal
  pending : run.view.pending = []
  awaited : run.view.Awaited
  sound : run.Sound task []

namespace Workbench

variable {task : Task} {bench : Workbench} {run : Run}
variable {lookahead : Nat}

theorem Schedules.steps_view
    (hSchedules : bench.Schedules task run) :
    (View.start bench task.program).Steps run.view :=
  hSchedules.steps.view

theorem Schedules.legal
    (hSchedules : bench.Schedules task run) :
    run.view.Legal task.program :=
  (View.legal_start hSchedules.single bench).steps hSchedules.single
    hSchedules.steps_view

/- What every step of a journal keeps holds of the whole schedule. -/
theorem Schedules.invariant
    {P : Journal → Prop}
    (hSchedules : bench.Schedules task run)
    (hStart : P (Journal.start bench task.program))
    (hStep :
      ∀ j j', j.view.Legal task.program → P j → j.Step task j' → P j') :
    P run.journal :=
  Journal.Steps.invariant hSchedules.single hSchedules.steps hStart hStep

section

variable (hFresh : bench.Fresh task) (backlog : UnitCycles)
include hFresh

theorem Fresh.sound_start :
    (Run.start bench task.program backlog).Sound task [] :=
  ⟨rfl, hFresh.machine_eq, hFresh.layout_eq, hFresh.memory,
    hFresh.capacity, hFresh.lowered⟩

theorem Fresh.journal_start :
    (Run.start bench task.program backlog).journal =
      Journal.start bench task.program := by
  simp [Run.journal, Run.view, Run.start, Ledger.start, Journal.start,
    View.start, hFresh.history]

theorem Fresh.awaited_start :
    (Run.start bench task.program backlog).view.Awaited := by
  rintro t ⟨b, ⟨hMem, -⟩, -⟩
  change b ∈ bench.memory.history at hMem
  rw [hFresh.history] at hMem
  cases hMem

end

/-
  A schedule takes a program that passes its check through as
  many rounds as it has operations, and then an audit.
-/
theorem ensures_schedule
    {program : List Operation}
    {E : CompileError → Prop}
    {Q : Schedule → Workbench → Prop} :
    Ensures (schedule program lookahead) bench E Q ↔
      Yields
        (checkProgram bench.machine bench.tensors 0 [] UnitCycles.zero program)
        E
        (fun backlog =>
          Ensures (Commit.all program lookahead)
            (Run.start bench program backlog) E
            (fun _ run => Q run.schedule run.bench)) := by
  unfold Ensures Yields schedule
  cases checkProgram bench.machine bench.tensors 0 [] UnitCycles.zero
      program with
  | error e => rfl
  | ok backlog =>
      dsimp only
      cases Commit.all program lookahead (Run.start bench program backlog) <;>
        rfl

/- All rounds together schedule a program that passed its check. -/
theorem Fresh.rounds_ensures
    (hFresh : bench.Fresh task)
    (hWindow : task.window = max lookahead 1)
    (hSingle : SingleAssignment task.program)
    (backlog : UnitCycles) :
    Ensures (Commit.all task.program lookahead)
      (Run.start bench task.program backlog) task.Tolerates
      (fun _ run => bench.Schedules task run) := by
  let start := Run.start bench task.program backlog
  have hJournal : start.journal = Journal.start bench task.program :=
    hFresh.journal_start backlog
  have hView : start.view = View.start bench task.program :=
    congrArg Journal.view hJournal
  have hLegal : start.view.Legal task.program := by
    rw [hView]
    exact View.legal_start hSingle bench
  have hLength : start.view.pending.length ≤ task.program.length := by
    simp [start, Run.view, Run.start, Ledger.start, located]
  unfold Commit.all Asking.all
  rw [← hWindow]
  refine (Commit.forM_next_ensures hSingle
    (hFresh.sound_start backlog) hLegal (hFresh.awaited_start backlog)
    (by omega) hLength).bind ?_
  intro _ run hRun
  rcases hRun with ⟨hSound, hSteps, hPending, hRead⟩
  unfold Commit.audit
  simp only [monadLift_self, ensures_bind, ensures_get,
    hSound.memory.audit, ensures_pure]
  change start.journal.Steps task run.journal at hSteps
  rw [hJournal] at hSteps
  exact ⟨hSingle, hSteps, hPending, hRead, hSound⟩

/- Every operation of a program commits. -/
theorem schedule_ensures
    (hFresh : bench.Fresh task)
    (hWindow : task.window = max lookahead 1) :
    Ensures (schedule task.program lookahead) bench task.Tolerates
      (fun result bench' => ∃ run,
        bench.Schedules task run ∧
          result = run.schedule ∧ bench' = run.bench) := by
  have hCheck :
      Yields (checkProgram bench.machine bench.tensors 0 [] UnitCycles.zero
          task.program) task.Tolerates
        (fun _ => SingleAssignment ([] ++ task.program)) := by
    refine checkProgram_yields (n := task.machine.arraySize) ?_ ?_ ?_ ?_
    · intro hLowered
      rw [hFresh.machine_eq]
      exact (hFresh.lowered hLowered).accepted.busWidth_pos
    · exact fun hLowered => (hFresh.lowered hLowered).program
    · intro i op hGet
      simp at hGet
    · simp [written]
  rw [ensures_schedule]
  refine hCheck.weaken ?_
  intro backlog hSingle
  refine (hFresh.rounds_ensures hWindow hSingle backlog).weaken ?_
  exact fun _ run hSchedules => ⟨run, hSchedules, rfl, rfl⟩

/- The task of a program of which nothing is known. -/
def taskOf
    (bench : Workbench)
    (program : List Operation)
    (lookahead : Nat) : Task where
  machine := bench.machine
  layout := bench.layout
  capacity := bench.memory.capacity
  program := program
  window := max lookahead 1
  lowered := False

/- A schedule of any program that starts with empty memories. -/
theorem schedules_of_ok
    {bench' : Workbench}
    {program : List Operation}
    {near far : Nat}
    {s : Schedule}
    (hEmpty : bench.memory = .empty near far)
    (hSchedule : schedule program lookahead bench = .ok s bench') :
    ∃ run, bench.Schedules (bench.taskOf program lookahead) run ∧
      s = run.schedule ∧ bench' = run.bench := by
  have hFresh : bench.Fresh (bench.taskOf program lookahead) := by
    constructor
    case machine_eq => rfl
    case layout_eq => rfl
    case memory =>
      rw [hEmpty]
      exact Memory.sound_empty near far
    case capacity => exact fun _ => rfl
    case history =>
      rw [hEmpty]
      rfl
    case lowered => exact False.elim
  exact (schedule_ensures hFresh rfl).of_ok hSchedule

end Workbench

end Systolic
