import Systolic.Program.Workbench
import Systolic.Schedule.Ledger

/-
  This file defines the state of a scheduler and its question to
  it, which operation is committed next.

  Operations on the array commit in program order. Loads and
  stores may overtake older operations inside a window, once
  what they read is there, if their result fits without moving
  a tensor off the chip and leaves room for the results that
  they overtake. A load or store that is oldest and does not fit
  so waits while another operation can commit.

  Key definitions include:
    * `Run`
    * `Run.append`
    * `Run.retire`
    * `Run.commitsCleanly`
    * `Run.standing`
    * `Run.select`
-/

namespace Systolic

------------------------------------------------------------
-- State
------------------------------------------------------------

/-
  The state of a scheduler: its books, which agree with what a
  search would find, the workbench, and the estimated cycles
  that wait for each unit.
-/
structure Run extends Ledger where
  bench : Workbench
  backlog : UnitCycles
  agrees : toLedger.Agrees

namespace Run

/- The number of committed operations. -/
def position (run : Run) : Nat :=
  run.committed.length

/- The schedule of what is committed. -/
def schedule (run : Run) : Schedule :=
  { ops := run.committed.reverse
    instructions := run.emitted.reverse.flatMap (·.instructions)
    bytes := run.emitted.reverse.flatMap (·.bytes) }

/- Where the tensors are. -/
def placement (run : Run) : Placement :=
  { machine := run.bench.machine
    tensors := run.bench.tensors
    memory := run.bench.memory }

/- Enter an operation with its instructions and its cycles. -/
def append
    (run : Run)
    (op : Operation)
    (origin : Option Nat)
    (encoded : Encoded)
    (cycles : Nat) : Run :=
  { run with
    toLedger := run.toLedger.append op origin encoded cycles
    agrees := run.agrees.append op origin encoded cycles }

/- Take an operation from the pending ones, and its cycles from the backlog. -/
def retire
    (run : Run)
    (op : Operation)
    (i cycles : Nat) : Run :=
  { run with
    toLedger := run.toLedger.retire i
    agrees := run.agrees.retire i
    backlog := run.backlog.set op.resource
      (run.backlog.get op.resource - cycles) }

/- The pending operations before a place of the program. -/
def pendingBefore
    (run : Run)
    (i : Nat) : List (Nat × Operation) :=
  run.pending.takeWhile (fun p => p.1 < i)

------------------------------------------------------------
-- Eligible Operations
------------------------------------------------------------

/- What an operation reads is on the chip. -/
def inputsResident
    (run : Run)
    (op : Operation) : Bool :=
  op.reads.all (fun t => run.bench.memory.IsResident t)

/- The vectors of one memory that operations are going to write. -/
def reserved
    (table : TensorTable)
    (kind : MemoryKind) :
    List (Nat × Operation) → Except CompileError Nat
| [] => .ok 0
| (_, op) :: ops =>
    match op.writes with
    | none => reserved table kind ops
    | some t => do
        let tensor ← table.fetch t
        let rest ← reserved table kind ops
        return if tensor.kind = kind then Count.addSat tensor.layout.depth rest
          else rest

/-
  An operation can commit with its inputs on the chip and its
  result placed at once, and leaves room for the results of the
  operations that it overtakes.
-/
def commitsCleanly
    (run : Run)
    (overtaken : List (Nat × Operation))
    (op : Operation) : Except CompileError Bool :=
  if ¬ run.inputsResident op then .ok false
  else
    match op.writes with
    | none => .ok true
    | some t => do
        let tensor ← run.bench.tensors.fetch t
        let memory := run.bench.memory
        if ¬ memory.Fits tensor.layout tensor.kind then return false
        else if overtaken = [] then return true
        else
          let older ← reserved run.bench.tensors tensor.kind overtaken
          let room := memory.capacity tensor.kind - memory.used tensor.kind
          return Count.addSat tensor.layout.depth older ≤ room

/- How a pending operation stands in a selection. -/
inductive Standing where
| blocked
| deferred
| ready (start backlog : Nat)
deriving DecidableEq, Repr

/- An operation is the first pending one of the array. -/
def IsOldestCompute
    (run : Run)
    (i : Nat) : Prop :=
  (run.pending.find? (fun p => p.2.resource = .compute)).map (·.1) = some i

instance
    (run : Run)
    (i : Nat) :
    Decidable (run.IsOldestCompute i) := by
  unfold IsOldestCompute
  infer_instance

/- An operation that can be chosen, with its first cycle. -/
def ready
    (run : Run)
    (op : Operation) : Standing :=
  .ready (run.readyAt op) (run.backlog.get op.resource)

/- How one of the pending operations stands. -/
def standing
    (run : Run)
    (oldest : Nat)
    (candidate : Nat × Operation) : Except CompileError Standing :=
  let (i, op) := candidate
  if ¬ run.inputsCommitted op then .ok .blocked
  else if op.resource = .compute then
    if ¬ run.IsOldestCompute i then .ok .blocked
    else if i = oldest then .ok (run.ready op)
    else do
      return if ← run.commitsCleanly [] op then run.ready op else .blocked
  else if i = oldest then do
    return if ← run.commitsCleanly [] op then run.ready op else .deferred
  else do
    return if ← run.commitsCleanly (run.pendingBefore i) op then run.ready op
      else .blocked

------------------------------------------------------------
-- Selection
------------------------------------------------------------

/- An operation that can be chosen. -/
structure Candidate where
  place : Nat
  operation : Operation
  start : Nat
  backlog : Nat
deriving DecidableEq, Repr

/-
  A candidate comes before an older one when it starts earlier,
  or at the same time on a unit for which more cycles wait.
-/
def Candidate.Precedes
    (c older : Candidate) : Prop :=
  c.start < older.start ∨ (c.start = older.start ∧ older.backlog < c.backlog)

instance (c older : Candidate) : Decidable (c.Precedes older) := by
  unfold Candidate.Precedes
  infer_instance

/- The best of the candidates, which are given oldest first. -/
def best? : List Candidate → Option Candidate
| [] => none
| c :: cs =>
    match best? cs with
    | none => some c
    | some d => if d.Precedes c then some d else some c

/- The candidate of an operation that is ready. -/
def candidate? : (Nat × Operation) × Standing → Option Candidate
| ((place, operation), .ready start backlog) =>
    some { place, operation, start, backlog }
| _ => none

/- The pending operation that is committed next. -/
def select
    (run : Run)
    (window : Nat)
    (oldest : Nat × Operation) : Except CompileError (Nat × Operation) := do
  let visible := run.pending.take window
  let standings ← visible.mapM (run.standing oldest.1)
  let judged := visible.zip standings
  match best? (judged.filterMap candidate?) with
  | some c => return (c.place, c.operation)
  | none =>
      match judged.find? (fun j => j.2 = .deferred) with
      | some j => return j.1
      | none =>
          .error (.scheduling .nothingReady
            (s!"{run.pending.length} pending, oldest is operation {oldest.1}: " ++
              oldest.2.describe run.bench.tensors))

end Run

end Systolic
