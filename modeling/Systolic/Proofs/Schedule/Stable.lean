import Systolic.Proofs.Schedule.Program
import Systolic.Proofs.Schedule.Round

/-
  This file proves which properties of a run survive a commitment
  and how a commitment can fail. What a commitment does to a run
  is the same for all programs, so nothing is asked of the
  program or of the memories. Only the search for a place on the
  chip can fail for lack of room.

  Key definitions include:
    * `Run.Stable`
    * `Commit.Keeps`

  Key theorems include:
    * `Commit.keeps_finish`
    * `Workbench.schedule_keeps`
-/

namespace Systolic

------------------------------------------------------------
-- Shortages
------------------------------------------------------------

/- A failure for lack of room on the chip. -/
def CompileError.IsShortage : CompileError → Prop
| .memory (.outOfMemory ..) => True
| _ => False

section Shortages

variable {α β : Type}

/- A result that is not a failure for lack of room. -/
def NoShortage (result : Except CompileError α) : Prop :=
  Yields result (fun e => ¬ e.IsShortage) (fun _ => True)

theorem noShortage_ok
    (a : α) :
    NoShortage (.ok a) :=
  trivial

theorem noShortage_error
    {e : CompileError}
    (hError : ¬ e.IsShortage) :
    NoShortage (.error e : Except CompileError α) :=
  hError

theorem NoShortage.bind
    {result : Except CompileError α}
    {next : α → Except CompileError β}
    (hResult : NoShortage result)
    (hNext : ∀ a, NoShortage (next a)) :
    NoShortage (result >>= next) :=
  Yields.bind hResult (fun a _ => hNext a)

theorem NoShortage.yields
    {E : CompileError → Prop}
    {result : Except CompileError α}
    (hResult : NoShortage result)
    (hOther : ∀ e, ¬ e.IsShortage → E e) :
    Yields result E (fun _ => True) := by
  cases result with
  | ok a => trivial
  | error e => exact hOther e hResult

theorem TensorTable.noShortage_fetch
    (table : TensorTable)
    (t : TensorId) :
    NoShortage (table.fetch t) := by
  unfold fetch
  split
  case h_1 => exact noShortage_ok _
  case h_2 => exact noShortage_error id

namespace Placement

theorem noShortage_onChip
    (p : Placement)
    (op : Operation)
    (kind : MemoryKind)
    (t : TensorId) :
    NoShortage (p.onChip op kind t) := by
  unfold onChip
  split
  case h_1 =>
    split
    case isTrue => exact noShortage_ok _
    case isFalse => exact noShortage_error id
  case h_2 => exact noShortage_error id

theorem noShortage_inDram
    (p : Placement)
    (op : Operation)
    (location : Option DramLocation)
    (size : Nat) :
    NoShortage (p.inDram op location size) := by
  unfold inDram
  split
  case h_1 => exact noShortage_error id
  case h_2 =>
    split
    case isTrue => exact noShortage_ok _
    case isFalse => exact noShortage_error id

end Placement

namespace Operation

theorem noShortage_checkMentions
    (table : TensorTable)
    (op : Operation) :
    NoShortage (op.checkMentions table) := by
  unfold checkMentions
  split
  case h_1 => exact noShortage_error id
  case h_2 => exact noShortage_ok _

theorem noShortage_cycles
    (m : Machine)
    (table : TensorTable)
    (op : Operation) :
    NoShortage (op.cycles m table) := by
  have hFetch : ∀ t, NoShortage (table.fetch t) := table.noShortage_fetch
  unfold cycles
  split
  case isTrue => exact noShortage_error id
  case isFalse =>
    split
    case h_5 =>
      exact (hFetch _).bind (fun _ => (hFetch _).bind noShortage_ok)
    all_goals exact (hFetch _).bind (fun _ => noShortage_ok _)

theorem noShortage_move
    (p : Placement)
    (op : Operation)
    (t : TensorId)
    (direction : DramBank → Direction)
    (location? : Tensor → Option DramLocation) :
    NoShortage (op.move p t direction location?) := by
  refine (p.tensors.noShortage_fetch t).bind (fun tensor => ?_)
  refine (p.noShortage_inDram op _ _).bind (fun location => ?_)
  exact (p.noShortage_onChip op _ t).bind (fun _ => noShortage_ok _)

theorem noShortage_instructions
    (p : Placement)
    (op : Operation) :
    NoShortage (op.instructions p) := by
  have hFetch : ∀ t, NoShortage (p.tensors.fetch t) :=
    p.tensors.noShortage_fetch
  have hChip : ∀ kind t, NoShortage (p.onChip op kind t) :=
    p.noShortage_onChip op
  cases op with
  | load t => exact noShortage_move p _ t _ _
  | reload t => exact noShortage_move p _ t _ _
  | store t => exact noShortage_move p _ t _ _
  | spill t => exact noShortage_move p _ t _ _
  | matMul input weights bias output =>
      have hBias :
          NoShortage (bias.mapM (p.onChip
            (.matMul input weights bias output) .scratchpad)) := by
        cases bias with
        | none => exact noShortage_ok _
        | some t => exact (hChip _ t).bind (fun _ => noShortage_ok _)
      refine (hChip _ input).bind (fun _ => (hChip _ weights).bind (fun _ => ?_))
      refine (hChip _ output).bind (fun _ => hBias.bind (fun _ => ?_))
      refine (hFetch input).bind (fun _ => (hFetch weights).bind (fun _ => ?_))
      exact (hFetch output).bind (fun _ => noShortage_ok _)
  | accumulate input output add =>
      refine (hChip _ input).bind (fun _ => (hChip _ output).bind (fun _ => ?_))
      exact (hFetch input).bind (fun _ => noShortage_ok _)
  | activate input output activation =>
      refine (hChip _ input).bind (fun _ => (hFetch input).bind (fun _ => ?_))
      exact (hChip _ output).bind (fun _ => noShortage_ok _)

theorem noShortage_encode
    (w : WordLayout)
    (p : Placement)
    (op : Operation) :
    NoShortage (op.encode w p) := by
  unfold encode
  refine (noShortage_checkMentions _ op).bind (fun _ => ?_)
  refine (noShortage_instructions p op).bind (fun s => ?_)
  split
  case h_1 => exact noShortage_error id
  case h_2 => exact noShortage_ok _

end Operation

namespace Run

theorem noShortage_reserved
    (table : TensorTable)
    (kind : MemoryKind)
    (ops : List (Nat × Operation)) :
    NoShortage (reserved table kind ops) := by
  induction ops with
  | nil => exact noShortage_ok _
  | cons p ops ih =>
      unfold reserved
      split
      case h_1 => exact ih
      case h_2 t _ =>
        refine (table.noShortage_fetch t).bind (fun tensor => ?_)
        exact ih.bind (fun _ => noShortage_ok _)

theorem noShortage_commitsCleanly
    (run : Run)
    (overtaken : List (Nat × Operation))
    (op : Operation) :
    NoShortage (run.commitsCleanly overtaken op) := by
  unfold commitsCleanly
  split
  case isTrue => exact noShortage_ok _
  case isFalse =>
    split
    case h_1 => exact noShortage_ok _
    case h_2 t _ =>
      refine (TensorTable.noShortage_fetch _ t).bind (fun tensor => ?_)
      dsimp only
      split
      case isTrue => exact noShortage_ok _
      case isFalse =>
        split
        case isTrue => exact noShortage_ok _
        case isFalse =>
          exact (noShortage_reserved _ _ _).bind (fun _ => noShortage_ok _)

theorem noShortage_standing
    (run : Run)
    (oldest : Nat)
    (candidate : Nat × Operation) :
    NoShortage (run.standing oldest candidate) := by
  have hClean :
      ∀ overtaken (f : Bool → Standing),
        NoShortage (do
          return f (← run.commitsCleanly overtaken candidate.2)) :=
    fun overtaken _ =>
      (run.noShortage_commitsCleanly overtaken _).bind
        (fun _ => noShortage_ok _)
  unfold standing
  dsimp only
  split
  case isTrue => exact noShortage_ok _
  case isFalse =>
    split
    case isTrue =>
      split
      case isTrue => exact noShortage_ok _
      case isFalse =>
        split
        case isTrue => exact noShortage_ok _
        case isFalse => exact hClean _ _
    case isFalse =>
      split
      case isTrue => exact hClean _ _
      case isFalse => exact hClean _ _

theorem noShortage_select
    (run : Run)
    (window : Nat)
    (oldest : Nat × Operation) :
    NoShortage (run.select window oldest) := by
  refine (select_yields_of_standings (P := fun _ _ => True) ?_ ?_).weaken
    (fun _ _ => trivial)
  · exact fun c _ => run.noShortage_standing oldest.1 c
  · exact fun _ _ => id

end Run

theorem noShortage_checkProgram
    (m : Machine)
    (table : TensorTable)
    (i : Nat)
    (defined : List TensorId)
    (backlog : UnitCycles)
    (ops : List Operation) :
    NoShortage (checkProgram m table i defined backlog ops) := by
  have hFault :
      ∀ i (op : Operation) fault t,
        NoShortage
          (programFault table i op fault t : Except CompileError UnitCycles) :=
    fun i op fault t =>
      (op.noShortage_checkMentions table).bind
        (fun _ => noShortage_error id)
  induction ops generalizing i defined backlog with
  | nil => exact noShortage_ok _
  | cons op ops ih =>
      unfold checkProgram
      split
      case h_1 => exact hFault _ _ _ _
      case h_2 =>
        split
        case h_1 => exact hFault _ _ _ _
        case h_2 =>
          exact (op.noShortage_cycles m table).bind (fun _ => ih _ _ _)

end Shortages

------------------------------------------------------------
-- Refusals of the Memories
------------------------------------------------------------

namespace Memory

variable {m : Memory} {t : TensorId}

/- An error of the memories that is not for lack of room. -/
def Refuses (e : MemoryError) : Prop :=
  ∃ fault, e = .invariant fault

theorem Refuses.not_isShortage
    {e : MemoryError}
    (hRefuses : Refuses e) :
    ¬ (CompileError.memory e).IsShortage := by
  rcases hRefuses with ⟨fault, rfl⟩
  exact id

theorem pin_refuses :
    Ensures (pin t) m Refuses (fun _ _ => True) := by
  unfold Ensures pin
  by_cases hResident : m.IsResident t
  · rw [if_pos hResident]
    trivial
  · rw [if_neg hResident]
    exact ⟨_, rfl⟩

theorem unpin_refuses :
    Ensures (unpin t) m Refuses (fun _ _ => True) := by
  unfold Ensures unpin
  by_cases hPinned : (m.resident? t).any (fun r => 0 < r.pins) = true
  · rw [if_pos hPinned]
    trivial
  · rw [if_neg hPinned]
    exact ⟨_, rfl⟩

theorem free_refuses :
    Ensures (free t) m Refuses (fun _ _ => True) := by
  unfold Ensures free release
  cases m.resident? t with
  | none => exact ⟨_, rfl⟩
  | some r =>
      dsimp only
      by_cases hPins : r.pins ≠ 0
      · rw [if_pos hPins]
        exact ⟨_, rfl⟩
      · rw [if_neg hPins]
        split
        case h_1 => trivial
        case h_2 hRun =>
          split at hRun
          case h_1 =>
            cases hRun
            exact ⟨_, rfl⟩
          case h_2 => cases hRun

end Memory

------------------------------------------------------------
-- Stable Properties
------------------------------------------------------------

/-
  A property of runs that survives all that a commitment can do:
  change the memories, give a tensor a place in DRAM, retire an
  operation, and append one whose words and cycles are known.
-/
structure Run.Stable (I : Run → Prop) : Prop where
  memory : ∀ run memory, I run → I (run.setMemory memory)
  reserve :
    ∀ run t location bench,
      run.bench.reserveSlot t .spilled .dram0 = .ok (location, bench) →
        I run → I { run with bench }
  retire :
    ∀ run op i cycles, I run → I (run.retire op i cycles)
  append :
    ∀ run op origin encoded cycles,
      op.encode run.bench.layout run.placement = .ok encoded →
      op.cycles run.bench.machine run.bench.tensors = .ok cycles →
        I run → I (run.append op origin encoded cycles)

theorem Run.stable_true : Run.Stable (fun _ => True) := by
  constructor
  all_goals intros
  all_goals trivial

namespace Commit

variable {α β : Type}
variable {E : CompileError → Prop}
variable {I : Run → Prop}

/-
  A part of a commitment that keeps a property of runs, or fails
  with an error that is tolerated.
-/
def Keeps
    (E : CompileError → Prop)
    (I : Run → Prop)
    (action : Commit α) : Prop :=
  ∀ run, I run → Ensures action run E (fun _ run' => I run')

theorem keeps_pure
    (a : α) :
    Keeps E I (pure a) :=
  fun _ hI => hI

theorem keeps_throw
    {e : CompileError}
    (hError : E e) :
    Keeps E I (throw e : Commit α) :=
  fun _ _ => hError

theorem keeps_get : Keeps E I get :=
  fun _ hI => hI

theorem keeps_ofExcept
    {result : Except CompileError α}
    (hResult : Yields result E (fun _ => True)) :
    Keeps E I (ofExcept result) := by
  cases result with
  | ok a => exact keeps_pure a
  | error e => exact keeps_throw hResult

theorem Keeps.bind
    {action : Commit α}
    {next : α → Commit β}
    (hAction : Keeps E I action)
    (hNext : ∀ a, Keeps E I (next a)) :
    Keeps E I (action >>= next) :=
  fun run hI => (hAction run hI).bind (fun a run' hI' => hNext a run' hI')

theorem Keeps.forM
    {f : α → Commit Unit}
    (hEach : ∀ a, Keeps E I (f a))
    (l : List α) :
    Keeps E I (l.forM f) :=
  fun _ hI => Ensures.forM (fun _ run => I run) hI
    (fun a _ run hI' => hEach a run hI')

theorem keeps_ask
    {question : Run → Except CompileError α}
    (hQuestion : ∀ run, Yields (question run) E (fun _ => True)) :
    Keeps E I (ask question) :=
  keeps_get.bind (fun run => keeps_ofExcept (hQuestion run))

------------------------------------------------------------
-- Commitments without a Search for Room
------------------------------------------------------------

section Stable

variable (hStable : Run.Stable I)

section Memories

include hStable

theorem keeps_onMemory
    {action : Memory.Action α}
    (hAction :
      ∀ m, Ensures action m (fun e => E (.memory e)) (fun _ _ => True)) :
    Keeps E I (onMemory action) := by
  intro run hI
  have hEnd := hAction run.bench.memory
  unfold Ensures at hEnd
  unfold Ensures onMemory
  cases hRun : action run.bench.memory with
  | ok a memory => exact hStable.memory run memory hI
  | error e memory =>
      rw [hRun] at hEnd
      exact hEnd

theorem keeps_modifyMemory
    (change : Memory → Memory) :
    Keeps E I (modifyMemory change) :=
  fun run hI => hStable.memory run _ hI

theorem keeps_setClock : Keeps E I setClock :=
  keeps_get.bind (fun _ => keeps_modifyMemory hStable _)

end Memories

section Other

variable (hOther : ∀ e, ¬ CompileError.IsShortage e → E e)

include hOther in
theorem keeps_fetch
    (t : TensorId) :
    Keeps E I (fetch t) :=
  keeps_ask (fun _ => (TensorTable.noShortage_fetch _ t).yields hOther)

include hOther in
theorem keeps_checkConflict
    (anchor : Nat)
    (op : Operation) :
    Keeps E I (checkConflict anchor op) := by
  refine keeps_get.bind ?_
  intro run
  split
  case h_1 => exact keeps_pure _
  case h_2 =>
    split
    case h_1 => exact keeps_pure _
    case h_2 => exact keeps_throw (hOther _ id)

include hStable hOther

theorem keeps_onMemory_of_refuses
    {action : Memory.Action α}
    (hAction :
      ∀ m, Ensures action m Memory.Refuses (fun _ _ => True)) :
    Keeps E I (onMemory action) := by
  refine keeps_onMemory hStable (fun m => (hAction m).mono ?_ ?_)
  · exact fun _ _ hTrue => hTrue
  · exact fun e hRefuses => hOther _ hRefuses.not_isShortage

/- An operation is appended in the state in which it was encoded. -/
theorem keeps_emit
    (op : Operation)
    (origin : Option Nat)
    (anchor : Nat) :
    Keeps E I (emit op origin anchor) := by
  intro run hI
  have hEncode := op.noShortage_encode run.bench.layout run.placement
  have hCycles :=
    op.noShortage_cycles run.bench.machine run.bench.tensors
  unfold emit
  simp only [ensures_bind, ensures_ask]
  cases hWords : op.encode run.bench.layout run.placement with
  | error e =>
      rw [hWords] at hEncode
      exact hOther e hEncode
  | ok encoded =>
      have hCheck :=
        (keeps_checkConflict hOther anchor op run hI).and
          checkConflict_keeps
      refine hCheck.mono ?_ (fun _ hBoth => hBoth.1)
      rintro _ run₁ ⟨-, rfl⟩
      cases hRun : op.cycles run₁.bench.machine run₁.bench.tensors with
      | error e =>
          rw [hRun] at hCycles
          exact hOther e hCycles
      | ok cycles =>
          exact hStable.append run₁ op origin encoded cycles hWords hRun hI

theorem keeps_retire
    (op : Operation)
    (i : Nat) :
    Keeps E I (retire op i) := by
  refine Keeps.bind (keeps_ask fun run => ?_) ?_
  · exact (op.noShortage_cycles _ _).yields hOther
  exact fun _ run hI => hStable.retire run _ _ _ hI

theorem keeps_releaseUnread
    (t : TensorId) :
    Keeps E I (releaseUnread t) := by
  refine keeps_get.bind ?_
  intro run
  split
  case isTrue =>
    exact (keeps_onMemory_of_refuses hStable hOther
      (fun _ => Memory.free_refuses)).bind (fun _ => keeps_pure _)
  case isFalse => exact keeps_pure _

theorem keeps_settle
    (op : Operation)
    (origin : Option Nat) :
    Keeps E I (settle op origin) := by
  have hRelease : ∀ t, Keeps E I (releaseUnread t) :=
    keeps_releaseUnread hStable hOther
  refine Keeps.bind ?_ (fun _ => Keeps.bind ?_ (fun _ => ?_))
  · refine Keeps.forM (fun i => ?_) _
    exact (keeps_retire hStable hOther op i).bind
      (fun _ => Keeps.forM hRelease _)
  · exact Keeps.forM hRelease _
  · refine Keeps.forM (fun t => ?_) _
    exact keeps_get.bind (fun _ => keeps_modifyMemory hStable _)

theorem keeps_finish
    (op : Operation)
    (origin : Option Nat)
    (anchor : Nat)
    (pins : List TensorId) :
    Keeps E I (finish op origin anchor pins) := by
  refine (keeps_emit hStable hOther op origin anchor).bind (fun _ => ?_)
  refine Keeps.bind (Keeps.forM (fun _ => ?_) _) (fun _ => ?_)
  · exact keeps_onMemory_of_refuses hStable hOther
      (fun _ => Memory.unpin_refuses)
  · exact keeps_settle hStable hOther op origin

theorem keeps_perform
    {place : TensorId → Commit Unit}
    (hPlace : ∀ t, Keeps E I (place t))
    (op : Operation)
    (origin : Option Nat)
    (anchor : Nat)
    (kept : List TensorId) :
    Keeps E I (Asking.perform place op origin anchor kept) := by
  refine (keeps_setClock hStable).bind (fun _ => ?_)
  refine Keeps.bind (Keeps.forM (fun _ => ?_) _) (fun _ => ?_)
  · exact keeps_onMemory_of_refuses hStable hOther
      (fun _ => Memory.pin_refuses)
  refine (Keeps.forM hPlace _).bind (fun _ => ?_)
  exact keeps_finish hStable hOther op origin anchor _

end Other

------------------------------------------------------------
-- All Commitments
------------------------------------------------------------

section All

include hStable

theorem keeps_onMemory_any
    (action : Memory.Action α) :
    Keeps (fun _ => True) I (onMemory action) := by
  refine keeps_onMemory hStable (fun m => ?_)
  unfold Ensures
  split <;> trivial

theorem keeps_reserveSpill
    (t : TensorId) :
    Keeps (fun _ => True) I (reserveSpill t) := by
  intro run hI
  unfold reserveSpill
  simp only [ensures_bind, ensures_get]
  split
  case h_1 => trivial
  case h_2 location bench hReserve =>
    exact hStable.reserve run t location bench hReserve hI

theorem keeps_evict
    (anchor : Nat)
    (victim : TensorId) :
    Keeps (fun _ => True) I (evict anchor victim) := by
  refine (keeps_fetch (fun _ _ => trivial) victim).bind (fun tensor => ?_)
  have hLeave :
      Keeps (fun _ => True) I
        (do let _ ← onMemory (Memory.spill victim); return PUnit.unit) :=
    (keeps_onMemory_any hStable _).bind (fun _ => keeps_pure _)
  split
  case isTrue =>
    refine (keeps_reserveSpill hStable victim).bind (fun _ => ?_)
    exact (keeps_perform hStable (fun _ _ => trivial)
      (fun _ => keeps_pure _) _ _ _ _).bind (fun _ => hLeave)
  case isFalse => exact (keeps_setClock hStable).bind (fun _ => hLeave)

theorem keeps_placeWithin
    (anchor : Nat)
    (t : TensorId)
    (rounds : Nat) :
    Keeps (fun _ => True) I (placeWithin anchor t rounds) := by
  induction rounds with
  | zero =>
      refine (keeps_fetch (fun _ _ => trivial) t).bind (fun tensor => ?_)
      exact keeps_get.bind (fun _ => keeps_throw trivial)
  | succ rounds ih =>
      refine (keeps_fetch (fun _ _ => trivial) t).bind (fun tensor => ?_)
      refine (keeps_onMemory_any hStable _).bind (fun placed => ?_)
      split
      case h_1 => exact keeps_pure _
      case h_2 =>
        refine Keeps.bind
          (Keeps.forM (keeps_evict hStable anchor) _) (fun _ => ?_)
        exact (keeps_setClock hStable).bind (fun _ => ih)

theorem keeps_operation
    (op : Operation)
    (origin : Option Nat)
    (anchor : Nat)
    (kept : List TensorId) :
    Keeps (fun _ => True) I (operation op origin anchor kept) :=
  keeps_perform hStable (fun _ _ => trivial)
    (fun t => keeps_get.bind (fun _ => keeps_placeWithin hStable anchor t _))
    op origin anchor kept

theorem keeps_bringBack
    (anchor : Nat)
    (reads : List TensorId)
    (t : TensorId) :
    Keeps (fun _ => True) I (bringBack anchor reads t) := by
  refine keeps_get.bind (fun run => ?_)
  dsimp only
  split
  case isTrue => exact keeps_operation hStable _ _ _ _
  case isFalse => exact keeps_pure _

theorem keeps_next
    (window : Nat) :
    Keeps (fun _ => True) I (next window) := by
  refine keeps_get.bind (fun run => ?_)
  split
  case h_1 => exact keeps_pure _
  case h_2 oldest _ _ =>
    refine Keeps.bind (keeps_ofExcept ?_) (fun chosen => ?_)
    · exact (run.noShortage_select window oldest).yields (fun _ _ => trivial)
    refine Keeps.bind
      (Keeps.forM (keeps_bringBack hStable _ _) _) (fun _ => ?_)
    exact keeps_operation hStable _ _ _ _

theorem keeps_all
    (program : List Operation)
    (lookahead : Nat) :
    Keeps (fun _ => True) I (all program lookahead) := by
  refine Keeps.bind (Keeps.forM (fun _ => keeps_next hStable _) _) ?_
  intro _
  change Keeps _ _ audit
  refine keeps_get.bind (fun run => ?_)
  split
  case h_1 => exact keeps_pure _
  case h_2 => exact keeps_throw trivial

end All

end Stable

end Commit

/- A stable property holds of the last run of a schedule. -/
theorem Workbench.schedule_keeps
    {I : Run → Prop}
    (hStable : Run.Stable I)
    {lookahead : Nat}
    {program : List Operation}
    {bench bench' : Workbench}
    {s : Schedule}
    (hStart : ∀ backlog, I (Run.start bench program backlog))
    (hSchedule : schedule program lookahead bench = .ok s bench') :
    ∃ run, I run ∧ s = run.schedule ∧ bench' = run.bench := by
  have hAll :
      Ensures (schedule program lookahead) bench (fun _ => True)
        (fun s bench' => ∃ run, I run ∧ s = run.schedule ∧
          bench' = run.bench) := by
    rw [ensures_schedule]
    apply Yields.of_forall
    intro backlog _
    refine (Commit.keeps_all hStable program lookahead _
      (hStart backlog)).weaken ?_
    exact fun _ run hI => ⟨run, hI, rfl, rfl⟩
  exact hAll.of_ok hSchedule

end Systolic
