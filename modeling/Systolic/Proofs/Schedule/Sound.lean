import Systolic.Proofs.Memory.Requests
import Systolic.Proofs.Schedule.Journal
import Systolic.Proofs.Tensor.Layout

/-
  This file proves what the parts of a commitment do to a run:
  pins, instructions and the release of tensors. A program that
  is lowered for its machine meets no error but admissible ones;
  of any other program nothing is said about its errors.

  Key definitions include:
    * `Run.Sound`
    * `Journal.Logs`
    * `Journal.Drops`

  Key theorems include:
    * `Commit.forM_pin_ensures`
    * `Commit.emit_ensures`
    * `Commit.releaseUnread_ensures`
-/

namespace Systolic

------------------------------------------------------------
-- Tasks
------------------------------------------------------------

namespace Task

variable {op : Operation}

/- A lowered program fails for a good reason only. -/
def Tolerates
    (task : Task)
    (e : CompileError) : Prop :=
  task.lowered → e.Admissible task.machine

/- What is known of a lowered program and its tensors. -/
structure Lowered
    (task : Task)
    (tensors : TensorTable)
    (dram : Dram) : Prop where
  accepted : task.machine.Accepted task.layout
  capacity :
    ∀ kind, task.capacity kind = task.machine.depth kind.store
  program : WellFormed task.machine.arraySize tensors task.program
  laid : tensors.Laid dram
  proper :
    ∀ t tensor, tensors.get? t = some tensor → tensor.layout.Proper

/-
  An operation has instructions that stay inside the regions of
  its tensors, as soon as these are in place.
-/
def Emits
    (task : Task)
    (table : TensorTable)
    (op : Operation) : Prop :=
  ∀ p : Placement,
    p.machine = task.machine → table.Extends p.tensors →
    p.AllBound op.mentions →
      Yields (op.instructions p) (·.Admissible task.machine)
        (·.Confined (p.Lends op))

variable {task : Task} {table table' : TensorTable}

theorem Emits.extend
    (hEmits : task.Emits table op)
    (hExtends : table.Extends table') :
    task.Emits table' op :=
  fun p hMachine hLater => hEmits p hMachine (hExtends.trans hLater)

theorem emits_of_typed
    (hAccepted : task.machine.Accepted task.layout)
    (hTyped : op.Typed task.machine.arraySize table) :
    task.Emits table op := by
  intro p hMachine hExtends hBound
  rw [← hMachine] at hAccepted hTyped ⊢
  exact Operation.instructions_yields hAccepted.arraySize_pos
    (hTyped.extend hExtends) hBound

theorem emits_reload
    {t : TensorId}
    (hCopy :
      ∃ tensor, table.Holds t .scratchpad tensor ∧
        tensor.dramCopy.isSome) :
    task.Emits table (.reload t) := by
  intro p hMachine hExtends hBound
  rcases View.holds_dramCopy_extend hExtends hCopy with
    ⟨tensor, hHolds, hSome⟩
  rcases Option.isSome_iff_exists.mp hSome with ⟨l, hLocation⟩
  rcases hBound.of_holds (by simp [Operation.mentions]) hHolds with
    ⟨b, hB, hKind⟩
  rw [← hMachine]
  exact Operation.reload_yields hB hKind hLocation

theorem emits_spill
    {t : TensorId}
    {tensor : Tensor}
    {l : DramLocation}
    (hHolds : table.Holds t .scratchpad tensor)
    (hSpilled : tensor.spilled = some l) :
    task.Emits table (.spill t) := by
  intro p hMachine hExtends hBound
  rcases hHolds.extend hExtends with ⟨grown, hGrown, hGrows⟩
  rcases hBound.of_holds (by simp [Operation.mentions]) hGrown with
    ⟨b, hB, hKind⟩
  rw [← hMachine]
  exact Operation.spill_yields hB hKind (hGrows.spilled l hSpilled)

/- The cycles of an operation of a lowered program are known. -/
theorem cycles_yields
    {m : Machine}
    (hBus : task.lowered → 0 < m.busWidth)
    (hKnown :
      task.lowered → ∀ t ∈ op.mentions,
        ∃ tensor, table.get? t = some tensor) :
    Yields (op.cycles m table) task.Tolerates (fun _ => True) := by
  cases hRun : op.cycles m table with
  | ok n => trivial
  | error e =>
      intro hLowered
      rcases Operation.cycles_isOk (hBus hLowered) (hKnown hLowered) with
        ⟨n, hOk⟩
      cases hRun.symm.trans hOk

end Task

------------------------------------------------------------
-- Sound Runs
------------------------------------------------------------

/- A run with other memories. -/
def Run.setMemory
    (run : Run)
    (memory : Memory) : Run :=
  { run with bench := { run.bench with memory } }

/- What holds of a run while the tensors of a list are pinned. -/
structure Run.Sound
    (task : Task)
    (pins : List TensorId)
    (run : Run) : Prop where
  program_eq : run.program = task.program
  machine_eq : run.bench.machine = task.machine
  layout_eq : run.bench.layout = task.layout
  memory : run.bench.memory.Sound pins
  capacity :
    ∀ kind, run.bench.memory.capacity kind = task.capacity kind
  lowered :
    task.lowered → task.Lowered run.bench.tensors run.bench.dram

namespace Run

variable {task : Task} {pins : List TensorId} {run run' : Run}
variable {t : TensorId}

@[simp] theorem position_view (run : Run) :
    run.view.position = run.position := by
  simp [View.position, view, position]

section

variable (hSound : run.Sound task pins)
include hSound

theorem Sound.setMemory
    {pins' : List TensorId}
    {m : Memory}
    (hMemory : m.Sound pins')
    (hCapacity :
      ∀ kind, m.capacity kind = run.bench.memory.capacity kind) :
    (run.setMemory m).Sound task pins' :=
  { hSound with
    memory := hMemory
    capacity := fun kind => (hCapacity kind).trans (hSound.capacity kind) }

theorem Sound.busWidth_pos
    (hLowered : task.lowered) :
    0 < run.bench.machine.busWidth := by
  rw [hSound.machine_eq]
  exact (hSound.lowered hLowered).accepted.busWidth_pos

/- The addresses of the tensors of a lowered program do not wrap. -/
theorem Sound.unwrapped
    {tensor : Tensor}
    (hLowered : task.lowered)
    (hEntry : run.bench.tensors.get? t = some tensor) :
    Count.Unwrapped (run.bench.memory.capacity tensor.kind)
      tensor.layout.alignment := by
  have hFacts := hSound.lowered hLowered
  constructor
  case half =>
    have hHalf := hFacts.accepted.half_le
    rw [hSound.capacity, hFacts.capacity]
    cases tensor.kind with
    | scratchpad => exact (by simp [Machine.depth, MemoryKind.store]; omega)
    | accumulator => exact (by simp [Machine.depth, MemoryKind.store]; omega)
  case count => exact (hFacts.proper t tensor hEntry).alignment_lt

/- A tensor is resident exactly if it is on the chip. -/
theorem Sound.isResident_iff :
    run.bench.memory.IsResident t ↔ run.view.OnChip t := by
  rw [hSound.memory.isResident_iff]
  constructor
  · intro hOpen
    rcases hOpen with ⟨b, hMem, hTensor, hNone⟩
    exact ⟨b, ⟨hMem, hNone⟩, hTensor⟩
  · intro hOn
    rcases hOn with ⟨b, ⟨hMem, hNone⟩, hTensor⟩
    exact ⟨b, hMem, hTensor, hNone⟩

/- Pinned tensors are on the chip. -/
theorem Sound.onChip_of_pinned
    (hPinned : t ∈ pins) :
    run.view.OnChip t :=
  hSound.isResident_iff.mp (hSound.memory.kept t hPinned)

/- The tensors on the chip are in place. -/
theorem Sound.allBound
    {ts : List TensorId}
    (hLowered : task.lowered)
    (hOn :
      ∀ t ∈ ts, ∃ b, run.view.Present b ∧ b.tensor = t ∧
        run.view.Suits b) :
    run.placement.AllBound ts := by
  intro t hMem
  rcases hOn t hMem with ⟨b, ⟨hIn, hOpen⟩, rfl, tensor, hEntry, hKind, hSize⟩
  rcases hSound.memory.exists_resident hIn hOpen with ⟨r, hR, rfl⟩
  have hInside := hSound.memory.resident_inside hR
  refine ⟨tensor, r.binding, ?_⟩
  constructor
  case binding =>
    exact hSound.memory.binding?_eq_some.mpr ⟨hIn, rfl, hOpen⟩
  case entry => exact hEntry
  case kind_eq => exact hKind
  case size_eq => exact hSize
  case size_pos => exact hInside.1
  case inside =>
    have hStop := hInside.2
    rw [hSound.capacity, (hSound.lowered hLowered).capacity,
      ← hSound.machine_eq] at hStop
    exact hStop

/- The free regions are what the view shows as unused. -/
theorem Sound.spares
    (kind : MemoryKind) :
    run.view.Spares kind (task.capacity kind)
      (run.bench.memory.freeList kind) := by
  constructor
  case sound => exact hSound.memory.lists kind
  case capacity_eq => exact hSound.capacity kind
  case free_iff =>
    intro a
    rw [hSound.memory.free_iff, hSound.capacity]
    refine and_congr_right (fun _ => ?_)
    constructor
    · intro hApart b hB
      rcases hSound.memory.exists_resident hB.1 hB.2 with ⟨r, hR, rfl⟩
      exact hApart r hR
    · intro hApart r hR
      rcases hSound.memory.recorded r hR with ⟨hEntry, hOpen⟩
      exact hApart r.binding ⟨List.mem_of_getElem? hEntry, hOpen⟩

/- All tensors are where the view shows them. -/
theorem Sound.shows :
    Journal.Shows task run.view run.view run.placement := by
  refine ⟨hSound.machine_eq, rfl, ?_⟩
  intro t b hBinding
  rcases hSound.memory.binding?_eq_some.mp hBinding with
    ⟨hMem, hTensor, hOpen⟩
  exact ⟨hTensor, .inl ⟨hMem, hOpen⟩⟩

end

/- A run of which nothing but pins and next uses is different. -/
structure Keeps (run run' : Run) : Prop where
  journal_eq : run'.journal = run.journal
  clock_eq : run'.bench.memory.clock = run.bench.memory.clock

theorem Keeps.view_eq
    (hKeeps : run.Keeps run') :
    run'.view = run.view :=
  congrArg Journal.view hKeeps.journal_eq

theorem Keeps.refl (run : Run) : run.Keeps run :=
  ⟨rfl, rfl⟩

theorem Keeps.trans
    {run'' : Run}
    (hFirst : run.Keeps run')
    (hSecond : run'.Keeps run'') :
    run.Keeps run'' :=
  ⟨hSecond.journal_eq.trans hFirst.journal_eq,
    hSecond.clock_eq.trans hFirst.clock_eq⟩

end Run

------------------------------------------------------------
-- Entries
------------------------------------------------------------

namespace Journal

variable {j : Journal}

/-
  An operation is entered while nothing else changes, with its
  tensors where the view shows them.
-/
def Logs
    (task : Task)
    (op : Operation)
    (origin : Option Nat)
    (j j' : Journal) : Prop :=
  ∃ p c e, Shows task j.view j.view p ∧ c.operation = op ∧
    c.origin = origin ∧ Records task j.instructionCount p c e ∧
    j' = j.entered { j.view with done := j.view.done ++ [op] } c e

variable {task : Task} {op : Operation} {origin : Option Nat}

/- The view of a journal with one more operation. -/
theorem Logs.view_eq
    {j' : Journal}
    (hLogs : j.Logs task op origin j') :
    j'.view = { j.view with done := j.view.done ++ [op] } := by
  rcases hLogs with ⟨p, c, e, -, -, -, -, rfl⟩
  rfl

/-
  What is entered in the middle of a step is an entry of the
  whole step, which may have begun with other bindings.
-/
theorem Logs.enters
    {j₁ j₂ : Journal}
    {v : View}
    (hLogs : j₁.Logs task op origin j₂)
    (hOps : j₁.ops = j.ops)
    (hEmitted : j₁.emitted = j.emitted)
    (hTensors : v.tensors = j₁.view.tensors)
    (hPresent :
      ∀ b, j₁.view.Present b → j.view.Present b ∨ v.Present b) :
    ∃ c e, c.operation = op ∧ c.origin = origin ∧ j.Enters task v c e ∧
      { j₂ with view := v } = j.entered v c e := by
  rcases hLogs with ⟨p, c, e, hShows, hOp, hOrigin, hRecords, rfl⟩
  have hCount : j₁.instructionCount = j.instructionCount := by
    unfold instructionCount
    rw [hOps]
  rw [hCount] at hRecords
  refine ⟨c, e, hOp, hOrigin, ⟨p, ?_, hRecords⟩, ?_⟩
  · constructor
    case machine_eq => exact hShows.machine_eq
    case tensors_eq => exact hShows.tensors_eq.trans hTensors.symm
    case binding =>
      intro t b hBinding
      rcases hShows.binding t b hBinding with ⟨hTensor, hThere⟩
      exact ⟨hTensor, hPresent b (or_self_iff.mp hThere)⟩
  · simp only [entered, hOps, hEmitted]

/- An operation that the scheduler adds is entered in one step. -/
theorem Logs.insert
    {j₁ j₂ : Journal}
    {v : View}
    (hLogs : j₁.Logs task op none j₂)
    (hOps : j₁.ops = j.ops)
    (hEmitted : j₁.emitted = j.emitted)
    (hTensors : v.tensors = j₁.view.tensors)
    (hPresent :
      ∀ b, j₁.view.Present b → j.view.Present b ∨ v.Present b)
    (hStep : j.view.Step v)
    (hPending : v.pending = j.view.pending)
    (hDone : v.done = j.view.done ++ [op]) :
    j.Step task { j₂ with view := v } := by
  rcases hLogs.enters hOps hEmitted hTensors hPresent with
    ⟨c, e, rfl, hOrigin, hEnters, hEntered⟩
  rw [hEntered]
  exact .insert hStep hPending hDone hOrigin hEnters

end Journal

namespace Commit

variable {task : Task} {pins : List TensorId} {run : Run}
variable {E : CompileError → Prop}
variable {anchor : Nat} {op : Operation}

------------------------------------------------------------
-- Parts of the State
------------------------------------------------------------

/- What an action on memories ensures, it ensures in a run. -/
theorem onMemory_ensures
    {α : Type}
    {action : Memory.Action α}
    {F : MemoryError → Prop}
    {P : α → Memory → Prop}
    {Q : α → Run → Prop}
    (hAction : Ensures action run.bench.memory F P)
    (hE : ∀ e, F e → E (.memory e))
    (hQ : ∀ a m, P a m → Q a (run.setMemory m)) :
    Ensures (onMemory action) run E Q := by
  unfold Ensures at hAction ⊢
  unfold onMemory
  cases hRun : action run.bench.memory with
  | ok a m =>
      rw [hRun] at hAction
      exact hQ a m hAction
  | error e m =>
      rw [hRun] at hAction
      exact hE e hAction

@[simp] theorem ensures_setClock
    {Q : Unit → Run → Prop} :
    Ensures setClock run E Q ↔
      Q () (run.setMemory (run.bench.memory.setClock run.position)) :=
  Iff.rfl

@[simp] theorem ensures_ask
    {α : Type}
    {question : Run → Except CompileError α}
    {Q : α → Run → Prop} :
    Ensures (ask question) run E Q ↔
      Yields (question run) E (fun a => Q a run) := by
  simp only [ask, ensures_bind, ensures_get]
  cases question run <;> rfl

/- The tensors of a list are pinned. -/
theorem forM_pin_ensures
    {ts : List TensorId}
    (hSound : run.Sound task pins)
    (hOn : ∀ t ∈ ts, run.view.OnChip t)
    (hFew : ∀ t ∈ ts, (ts ++ pins).count t < UInt32.size) :
    Ensures (ts.forM (fun t => onMemory (Memory.pin t))) run E
      (fun _ run' => run'.Sound task (ts ++ pins) ∧
        run.Keeps run') := by
  induction ts generalizing pins run with
  | nil => exact ⟨hSound, .refl run⟩
  | cons t ts ih =>
      have hResident : run.bench.memory.IsResident t :=
        hSound.isResident_iff.mpr (hOn t List.mem_cons_self)
      have hPin := Memory.pin_ensures (E := fun _ => False)
        hSound.memory hResident (by
          have hAll := hFew t List.mem_cons_self
          simp only [List.cons_append, List.count_cons_self,
            List.count_append] at hAll ⊢
          omega)
      refine Ensures.bind
        (R := fun _ run' => run'.Sound task (t :: pins) ∧ run.Keeps run')
        (onMemory_ensures hPin (fun _ hFalse => hFalse.elim) ?_) ?_
      · intro _ m hM
        rcases hM with ⟨hMemory, hKeeps, hHistory⟩
        refine ⟨hSound.setMemory hMemory hKeeps.capacity, ?_, hKeeps.clock⟩
        simp only [Run.journal, Run.view, Run.setMemory, hHistory]
      · intro _ run₁ hRun
        rcases hRun with ⟨hSound₁, hKeeps⟩
        have hRest : ∀ u ∈ ts, run₁.view.OnChip u := by
          intro u hU
          rw [hKeeps.view_eq]
          exact hOn u (List.mem_cons_of_mem t hU)
        have hPerm : (ts ++ t :: pins).Perm (t :: ts ++ pins) :=
          List.perm_middle
        have hFewer :
            ∀ u ∈ ts, (ts ++ t :: pins).count u < UInt32.size := by
          intro u hU
          rw [hPerm.count_eq]
          exact hFew u (List.mem_cons_of_mem t hU)
        refine (ih hSound₁ hRest hFewer).weaken ?_
        intro _ run₂ hRun₂
        refine ⟨?_, hKeeps.trans hRun₂.2⟩
        exact { hRun₂.1 with
          memory := hRun₂.1.memory.perm hPerm }

/- The pins of a list are taken back. -/
theorem forM_unpin_ensures
    {ts : List TensorId}
    (hSound : run.Sound task (ts ++ pins)) :
    Ensures (ts.forM (fun t => onMemory (Memory.unpin t))) run E
      (fun _ run' => run'.Sound task pins ∧ run.Keeps run') := by
  induction ts generalizing run with
  | nil => exact ⟨hSound, .refl run⟩
  | cons t ts ih =>
      have hUnpin := Memory.unpin_ensures (E := fun _ => False)
        hSound.memory
      refine Ensures.bind
        (R := fun _ run' =>
          run'.Sound task (ts ++ pins) ∧ run.Keeps run')
        (onMemory_ensures hUnpin (fun _ hFalse => hFalse.elim) ?_) ?_
      · intro _ m hM
        rcases hM with ⟨hMemory, hKeeps, hHistory⟩
        refine ⟨hSound.setMemory hMemory hKeeps.capacity, ?_, hKeeps.clock⟩
        simp only [Run.journal, Run.view, Run.setMemory, hHistory]
      · intro _ run₁ hRun
        refine (ih hRun.1).weaken ?_
        intro _ run₂ hRun₂
        exact ⟨hRun₂.1, hRun.2.trans hRun₂.2⟩

------------------------------------------------------------
-- Instructions
------------------------------------------------------------

section

variable (hSound : run.Sound task pins)
include hSound

/- A result never meets what other operations have to read. -/
theorem conflict?_eq_none
    {b : Binding}
    {u : TensorId}
    (hBinding : run.bench.memory.binding? u = some b) :
    conflict? run anchor b = none := by
  rcases hSound.memory.binding?_eq_some.mp hBinding with
    ⟨hMem, -, hOpen⟩
  unfold conflict?
  rw [List.findSome?_eq_none_iff]
  intro p _
  rw [Option.map_eq_none_iff, List.find?_eq_none]
  intro t _ hConflict
  rcases of_decide_eq_true hConflict with ⟨hNe, hMeets⟩
  rcases (Option.any_eq_true _ _).mp hMeets with ⟨c, hC, hBoth⟩
  rcases of_decide_eq_true hBoth with ⟨hKind, hOverlaps⟩
  rcases hSound.memory.binding?_eq_some.mp hC with
    ⟨hMemC, hTensor, hOpenC⟩
  have hOther : c.tensor ≠ b.tensor := by
    rw [hTensor]
    exact hNe
  exact hSound.memory.apart_of_open hMemC hOpenC hMem hOpen hOther hKind
    hOverlaps

theorem checkConflict_ensures :
    Ensures (checkConflict anchor op) run E
      (fun _ run' => run' = run) := by
  unfold checkConflict
  simp only [ensures_bind, ensures_get]
  cases hBinding : op.writes.bind run.bench.memory.binding? with
  | none => rfl
  | some b =>
      rcases Option.bind_eq_some_iff.mp hBinding with ⟨u, -, hU⟩
      simp only [conflict?_eq_none hSound hU]
      rfl

/- The words of an operation have instructions that are confined. -/
theorem encode_yields
    (hBound : task.lowered → run.placement.AllBound op.mentions)
    (hInstructions :
      task.lowered →
        Yields (op.instructions run.placement)
          (·.Admissible task.machine)
          (·.Confined (run.placement.Lends op))) :
    Yields (op.encode run.bench.layout run.placement) task.Tolerates
      (fun e => op.encode task.layout run.placement = .ok e ∧
        (task.lowered →
          ∀ i ∈ e.instructions, i.Confined (run.placement.Lends op))) := by
  have hMachine : run.placement.machine = task.machine := hSound.machine_eq
  cases hRun : op.encode run.bench.layout run.placement with
  | ok e =>
      refine ⟨hSound.layout_eq ▸ hRun, ?_⟩
      intro hLowered i hI
      rcases Operation.encode_eq_ok hRun with ⟨row, hRow, hList, -⟩
      have hConfined := hInstructions hLowered
      rw [hRow] at hConfined
      rw [hList] at hI
      rcases List.mem_map.mp hI with ⟨k, hK, rfl⟩
      exact hConfined k (List.mem_range.mp hK)
  | error e =>
      intro hLowered
      have hFacts := hSound.lowered hLowered
      have hAccepted := hFacts.accepted
      have hConfined := hInstructions hLowered
      rw [← hMachine, ← hSound.layout_eq] at hAccepted
      rw [← hMachine] at hConfined ⊢
      have hYields := Operation.encode_yields hAccepted hFacts.laid
        (hBound hLowered) hConfined
      rw [hRun] at hYields
      exact hYields

/- An operation whose tensors are in place commits. -/
theorem emit_ensures
    {origin : Option Nat}
    (hEmits : task.lowered → task.Emits run.bench.tensors op)
    (hBound : task.lowered → run.placement.AllBound op.mentions) :
    Ensures (emit op origin anchor) run task.Tolerates
      (fun _ run' => run'.Sound task pins ∧
        run.journal.Logs task op origin run'.journal ∧
        run'.bench.memory.clock = run.bench.memory.clock) := by
  have hKnown :
      task.lowered → ∀ t ∈ op.mentions,
        ∃ tensor, run.bench.tensors.get? t = some tensor := by
    intro hLowered t hMem
    rcases hBound hLowered t hMem with ⟨tensor, b, hB⟩
    exact ⟨tensor, hB.entry⟩
  have hInstructions :
      task.lowered →
        Yields (op.instructions run.placement)
          (·.Admissible task.machine)
          (·.Confined (run.placement.Lends op)) :=
    fun hLowered =>
      hEmits hLowered run.placement hSound.machine_eq (.refl _)
        (hBound hLowered)
  unfold emit
  simp only [ensures_bind, ensures_ask]
  refine (encode_yields hSound hBound hInstructions).weaken ?_
  rintro e ⟨hEncoded, hConfined⟩
  refine (checkConflict_ensures hSound).weaken ?_
  intro _ run₁ hSame
  subst hSame
  refine (Task.cycles_yields hSound.busWidth_pos hKnown).weaken ?_
  intro cycles _
  simp only [append, ensures_modify]
  refine ⟨{ hSound with }, ?_, rfl⟩
  let c := run₁.entry op origin e cycles
  have hRecords :
      Journal.Records task run₁.journal.instructionCount run₁.placement
        c e := by
    rw [Run.instructionCount_journal]
    exact ⟨hEncoded, rfl, rfl, rfl, hConfined⟩
  refine ⟨run₁.placement, c, e, hSound.shows, rfl, rfl, hRecords, ?_⟩
  simp only [c, Run.journal, Run.view, Journal.entered, Run.append,
    Ledger.append, Ledger.entry, List.map_cons, List.reverse_cons]

end

end Commit

------------------------------------------------------------
-- Release
------------------------------------------------------------

/- Tensors that nothing reads are dropped, and nothing else changes. -/
structure Journal.Drops
    (task : Task)
    (j j' : Journal) : Prop where
  steps : j.Steps task j'
  pending_eq : j'.view.pending = j.view.pending
  done_eq : j'.view.done = j.view.done
  keeps :
    ∀ t, j.view.OnChip t → ¬ j.view.Unread t → j'.view.OnChip t
  stays : ∀ t, j'.view.OnChip t → j.view.OnChip t

namespace Journal.Drops

variable {task : Task} {j j' j'' : Journal}

theorem refl (j : Journal) : j.Drops task j :=
  ⟨.refl, rfl, rfl, fun _ hOn _ => hOn, fun _ hOn => hOn⟩

theorem unread_iff
    (hDrops : j.Drops task j')
    (t : TensorId) :
    j'.view.Unread t ↔ j.view.Unread t :=
  View.unread_congr hDrops.pending_eq t

theorem trans
    (hFirst : j.Drops task j')
    (hSecond : j'.Drops task j'') :
    j.Drops task j'' where
  steps := hFirst.steps.trans hSecond.steps
  pending_eq := hSecond.pending_eq.trans hFirst.pending_eq
  done_eq := hSecond.done_eq.trans hFirst.done_eq
  keeps := by
    intro t hOn hRead
    refine hSecond.keeps t (hFirst.keeps t hOn hRead) ?_
    rw [hFirst.unread_iff]
    exact hRead
  stays := fun t hOn => hFirst.stays t (hSecond.stays t hOn)

end Journal.Drops

namespace Commit

variable {task : Task} {pins : List TensorId} {run : Run}
variable {E : CompileError → Prop}

/-
  A run that settles: it is sound, its clock is at its last
  operation, and its journal has changed by drops only.
-/
structure Settles
    (task : Task)
    (pins : List TensorId)
    (j : Journal)
    (run : Run) : Prop where
  sound : run.Sound task pins
  clock : run.bench.memory.clock = run.position - 1
  drops : j.Drops task run.journal

/- A tensor is released unless something reads it. -/
theorem releaseUnread_ensures
    {t : TensorId}
    (hSound : run.Sound task pins)
    (hClock : run.bench.memory.clock = run.position - 1)
    (hUnpinned : t ∉ pins) :
    Ensures (releaseUnread t) run E
      (fun _ run' => Settles task pins run.journal run' ∧
        (run'.view.OnChip t → ¬ run'.view.Unread t)) := by
  unfold releaseUnread
  simp only [ensures_bind, ensures_get]
  split
  case isFalse hNot =>
    refine ⟨⟨hSound, hClock, .refl _⟩, ?_⟩
    intro hOn hUnread
    exact hNot ⟨hSound.isResident_iff.mpr hOn,
      (run.agrees.remaining_eq_zero_iff t).mpr hUnread⟩
  case isTrue hBoth =>
    rcases hBoth with ⟨hResident, hNoUse⟩
    have hOn := hSound.isResident_iff.mp hResident
    have hUnread : run.view.Unread t :=
      (run.agrees.remaining_eq_zero_iff t).mp hNoUse
    have hFree := Memory.release_ensures (E := fun _ => False) false
      hSound.memory hResident hUnpinned
    simp only [ensures_bind]
    refine onMemory_ensures hFree (fun _ hFalse => hFalse.elim) ?_
    intro _ m hM
    rcases hM with ⟨hMemory, hKeeps, hHistory⟩
    let v : View :=
      { run.view with
        history := close run.view.history t
          (run.view.position - 1) false }
    have hJournal :
        (run.setMemory m).journal = { run.journal with view := v } := by
      unfold v
      rw [Run.position_view, ← hClock]
      simp only [Run.journal, Run.view, Run.setMemory, hHistory]
    have hView : (run.setMemory m).view = v :=
      congrArg Journal.view hJournal
    have hStays : ∀ u, v.OnChip u ↔ run.view.OnChip u ∧ u ≠ t :=
      fun u => View.onChip_close rfl u
    have hDrops : run.journal.Drops task (run.setMemory m).journal := by
      rw [hJournal]
      constructor
      case steps => exact .single (.silent (.drop hOn hUnread) rfl rfl)
      case pending_eq => rfl
      case done_eq => rfl
      case keeps =>
        intro u hU hRead
        refine (hStays u).mpr ⟨hU, ?_⟩
        intro hSame
        exact hRead (hSame ▸ hUnread)
      case stays => exact fun u hU => ((hStays u).mp hU).1
    refine ⟨⟨hSound.setMemory hMemory hKeeps.capacity,
      hKeeps.clock.trans hClock, hDrops⟩, ?_⟩
    intro hThere
    rw [hView] at hThere
    exact absurd rfl ((hStays t).mp hThere).2

/- Tensors of a list that nothing reads are released. -/
theorem forM_releaseUnread_ensures
    {ts : List TensorId}
    (hSound : run.Sound task pins)
    (hClock : run.bench.memory.clock = run.position - 1)
    (hUnpinned : ∀ t ∈ ts, t ∉ pins) :
    Ensures (ts.forM releaseUnread) run E
      (fun _ run' => Settles task pins run.journal run' ∧
        ∀ t ∈ ts, run'.view.OnChip t → ¬ run'.view.Unread t) := by
  -- Tensors of the list are to come, or they are released or read.
  let I : List TensorId → Run → Prop := fun rest run' =>
    Settles task pins run.journal run' ∧ (∀ t ∈ rest, t ∈ ts) ∧
      ∀ t ∈ ts, t ∈ rest ∨ (run'.view.OnChip t → ¬ run'.view.Unread t)
  have hRun : Ensures (ts.forM releaseUnread) run E
      (fun _ run' => I [] run') := by
    apply Ensures.forM I
    · exact ⟨⟨hSound, hClock, .refl _⟩, fun t hT => hT,
        fun t hT => .inl hT⟩
    · intro t rest run₁ hI
      rcases hI with ⟨hSettles₁, hRest, hDone⟩
      have hListed := hRest t List.mem_cons_self
      refine (releaseUnread_ensures hSettles₁.sound hSettles₁.clock
        (hUnpinned t hListed)).weaken ?_
      intro _ run₂ hRun₂
      rcases hRun₂ with ⟨hSettles₂, hReleased⟩
      have hDrops := hSettles₂.drops
      refine ⟨⟨hSettles₂.sound, hSettles₂.clock,
        hSettles₁.drops.trans hDrops⟩,
        fun u hU => hRest u (List.mem_cons_of_mem t hU), ?_⟩
      intro u hU
      rcases hDone u hU with hWaits | hRead
      · rcases List.mem_cons.mp hWaits with rfl | hWaits
        · exact .inr hReleased
        · exact .inl hWaits
      · right
        intro hOn hUnread
        exact hRead (hDrops.stays u hOn) ((hDrops.unread_iff u).mp hUnread)
  refine hRun.weaken ?_
  intro _ run' hI
  exact ⟨hI.1, fun t hT => (hI.2.2 t hT).resolve_left List.not_mem_nil⟩

/- Next uses are noted. -/
theorem forM_noteNextUse_ensures
    {ts : List TensorId}
    (hSound : run.Sound task pins) :
    Ensures (ts.forM noteNextUse) run E
      (fun _ run' => run'.Sound task pins ∧ run.Keeps run') := by
  refine Ensures.forM
    (fun _ run' => run'.Sound task pins ∧ run.Keeps run')
    ⟨hSound, .refl run⟩ ?_
  intro t _ run₁ hI
  simp only [noteNextUse, modifyMemory, ensures_bind, ensures_get,
    ensures_modify]
  have hMemory := hI.1.memory.setNextUse (t := t) (run₁.nextUse? t)
  exact ⟨hI.1.setMemory hMemory (fun _ => rfl),
    hI.2.trans ⟨rfl, rfl⟩⟩

end Commit

end Systolic
