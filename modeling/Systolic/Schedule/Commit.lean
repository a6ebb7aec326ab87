import Systolic.Schedule.Run

/-
  This file defines the commitment of operations, which is the
  only place where the memories on the chip change.

  An operation pins what it reads, places its result, is turned
  into instructions, and then releases what nothing pending
  reads. A result that does not fit lets tensors leave the chip
  first, and a tensor without a copy in DRAM is stored before it
  leaves. A tensor that has left is brought back before it is
  read.

  Key definitions include:
    * `Commit`
    * `Commit.finish`
    * `Commit.evict`
    * `Asking.operation`
    * `Asking.next`
    * `Workbench.schedule`
-/

namespace Systolic

/- A step of a scheduler. -/
abbrev Commit (α : Type) :=
  EStateM CompileError Run α

namespace Commit

------------------------------------------------------------
-- Parts of the State
------------------------------------------------------------

/- Act on the memories. -/
def onMemory
    {α : Type}
    (action : Memory.Action α) : Commit α := fun run =>
  match action run.bench.memory with
  | .ok a memory => .ok a { run with bench := { run.bench with memory } }
  | .error e memory =>
      .error (.memory e) { run with bench := { run.bench with memory } }

/- Change the memories. -/
def modifyMemory (change : Memory → Memory) : Commit Unit :=
  modify (fun run =>
    { run with bench := { run.bench with memory := change run.bench.memory } })

/- Mark the memories with the position of the next operation. -/
def setClock : Commit Unit := do
  let position := (← get).position
  modifyMemory (·.setClock position)

/- A result that may be an error. -/
def ofExcept
    {α : Type} : Except CompileError α → Commit α
| .ok a => return a
| .error e => throw e

/- Ask a question that may fail. -/
def ask
    {α : Type}
    (question : Run → Except CompileError α) : Commit α := do
  ofExcept (question (← get))

/- The entry of a tensor. -/
def fetch (t : TensorId) : Commit Tensor :=
  ask (·.bench.tensors.fetch t)

------------------------------------------------------------
-- Instructions
------------------------------------------------------------

/-
  A write must not meet what an operation before `anchor` still
  has to read.
-/
def conflict?
    (run : Run)
    (anchor : Nat)
    (b : Binding) : Option (TensorId × Nat) :=
  (run.pendingBefore anchor).findSome?
    (fun p =>
      (p.2.reads.find?
        (fun t =>
          t ≠ b.tensor ∧
            (run.bench.memory.binding? t).any
              (fun c => c.kind = b.kind ∧ c.region.Overlaps b.region))).map
        (fun t => (t, p.1)))

/- Refuse a result that overwrites an operand of an older operation. -/
def checkConflict
    (anchor : Nat)
    (op : Operation) : Commit Unit := do
  let run ← get
  match op.writes.bind run.bench.memory.binding? with
  | none => return ()
  | some b =>
      match conflict? run anchor b with
      | none => return ()
      | some (t, reader) =>
          let table := run.bench.tensors
          throw (.scheduling
            (.overwrites (table.name b.tensor) (table.name t) reader)
            (op.describe table))

/- Append an operation with its instructions and its cycles. -/
def append
    (op : Operation)
    (origin : Option Nat)
    (encoded : Encoded)
    (cycles : Nat) : Commit Unit :=
  modify (·.append op origin encoded cycles)

/- Turn an operation whose tensors are placed into instructions. -/
def emit
    (op : Operation)
    (origin : Option Nat)
    (anchor : Nat) : Commit Unit := do
  let encoded ← ask (fun run => op.encode run.bench.layout run.placement)
  checkConflict anchor op
  let cycles ← ask (fun run => op.cycles run.bench.machine run.bench.tensors)
  append op origin encoded cycles

------------------------------------------------------------
-- Release
------------------------------------------------------------

/- Take a committed operation from the pending ones. -/
def retire
    (op : Operation)
    (i : Nat) : Commit Unit := do
  let cycles ← ask (fun run => op.cycles run.bench.machine run.bench.tensors)
  modify (·.retire op i cycles)

/- Release a tensor on the chip that no pending operation reads. -/
def releaseUnread (t : TensorId) : Commit Unit := do
  let run ← get
  if run.bench.memory.IsResident t ∧ run.remaining t = 0 then
    let _ ← onMemory (Memory.free t)

/- Note the next use of a tensor. -/
def noteNextUse (t : TensorId) : Commit Unit := do
  let use := (← get).nextUse? t
  modifyMemory (·.setNextUse t use)

/-
  Release what a committed operation was the last to read, and a
  result that nothing reads.
-/
def settle
    (op : Operation)
    (origin : Option Nat) : Commit Unit := do
  origin.toList.forM (fun i => do
    retire op i
    op.reads.forM releaseUnread)
  op.writes.toList.forM releaseUnread
  (op.reads ++ op.writes.toList).forM noteNextUse

/- End the commitment of an operation whose result is placed. -/
def finish
    (op : Operation)
    (origin : Option Nat)
    (anchor : Nat)
    (pins : List TensorId) : Commit Unit := do
  emit op origin anchor
  pins.forM (fun t => onMemory (Memory.unpin t))
  settle op origin

end Commit

------------------------------------------------------------
-- Operations
------------------------------------------------------------

namespace Asking

variable {m : Type → Type} [Monad m] [MonadLiftT Commit m]

/- Commit an operation, given how its result is placed. -/
def perform
    (place : TensorId → m Unit)
    (op : Operation)
    (origin : Option Nat)
    (anchor : Nat)
    (kept : List TensorId) : m Unit := do
  Commit.setClock
  let pins := op.reads ++ kept
  (pins.forM (fun t => Commit.onMemory (Memory.pin t)) : Commit Unit)
  op.writes.toList.forM place
  Commit.finish op origin anchor pins

end Asking

namespace Commit

/- Give a tensor a place in DRAM to wait in. -/
def reserveSpill (t : TensorId) : Commit Unit := do
  let run ← get
  match run.bench.reserveSlot t .spilled .dram0 with
  | .error e => throw e
  | .ok (_, bench) => set { run with bench }

/- Let a tensor leave the chip, stored first if DRAM has no copy. -/
def evict
    (anchor : Nat)
    (victim : TensorId) : Commit Unit := do
  let tensor ← fetch victim
  if tensor.dramCopy.isNone then
    reserveSpill victim
    Asking.perform (fun _ => return ()) (.spill victim) none anchor []
  else
    setClock
  let _ ← onMemory (Memory.spill victim)

/- Ask for room for a tensor. -/
def allocate
    (t : TensorId)
    (tensor : Tensor) : Commit Allocation :=
  onMemory (Memory.allocate t tensor.name tensor.layout tensor.kind)

/- Refuse memories that contradict themselves. -/
def audit : Commit Unit := do
  match (← get).bench.memory.audit with
  | .ok _ => return ()
  | .error fault => throw (.memory (.invariant fault))

end Commit

/-
  The steps of a scheduler that ask for room, given what it does
  to ask. It may do more than `Commit.allocate` does, such as to
  keep a list of what it asks for.
-/
namespace Asking

variable {m : Type → Type} [Monad m] [MonadLiftT Commit m]
variable (allocate : TensorId → Tensor → m Allocation)

/-
  Place a tensor, and let victims leave as long as it does not
  fit. Each round removes a resident tensor, so one round more
  than there are residents is enough.
-/
def placeWithin
    (anchor : Nat)
    (t : TensorId) : Nat → m Unit
| 0 =>
    (do
      let tensor ← Commit.fetch t
      let capacity := (← get).bench.memory.capacity tensor.kind
      throw (.memory (.outOfMemory tensor.name tensor.kind
        tensor.layout.depth capacity)) : Commit Unit)
| rounds + 1 => do
    let tensor ← Commit.fetch t
    match ← allocate t tensor with
    | .placed _ => return ()
    | .spill _ victims =>
        (victims.forM (Commit.evict anchor) : Commit Unit)
        Commit.setClock
        placeWithin anchor t rounds

/- Place the result of an operation. -/
def placeResult
    (anchor : Nat)
    (t : TensorId) : m Unit := do
  let run ← (get : Commit Run)
  placeWithin allocate anchor t (run.bench.memory.residents.length + 2)

/- Commit an operation. -/
def operation
    (op : Operation)
    (origin : Option Nat)
    (anchor : Nat)
    (kept : List TensorId) : m Unit :=
  perform (placeResult allocate anchor) op origin anchor kept

/- Bring back one of the tensors that an operation reads. -/
def bringBack
    (anchor : Nat)
    (reads : List TensorId)
    (t : TensorId) : m Unit := do
  let memory := (← (get : Commit Run)).bench.memory
  if ¬ memory.IsResident t then
    operation allocate (.reload t) none anchor
      (reads.filter (fun u => memory.IsResident u))

/- Commit the next operation of the program. -/
def next (window : Nat) : m Unit := do
  let run ← (get : Commit Run)
  match run.pending with
  | [] => return ()
  | oldest :: _ =>
      let (i, op) ← Commit.ofExcept (run.select window oldest)
      op.reads.forM (bringBack allocate i op.reads)
      operation allocate op (some i) i []

/-
  Commit every operation of a program. Loads and stores may
  overtake older operations that are fewer than `lookahead`.
-/
def all
    (program : List Operation)
    (lookahead : Nat) : m Unit := do
  program.forM (fun _ => next allocate (max lookahead 1))
  Commit.audit

end Asking

namespace Commit

/- Place a tensor in a number of rounds. -/
def placeWithin
    (anchor : Nat)
    (t : TensorId)
    (rounds : Nat) : Commit Unit :=
  Asking.placeWithin allocate anchor t rounds

/- Place the result of an operation. -/
def placeResult
    (anchor : Nat)
    (t : TensorId) : Commit Unit :=
  Asking.placeResult allocate anchor t

/- Commit an operation. -/
def operation
    (op : Operation)
    (origin : Option Nat)
    (anchor : Nat)
    (kept : List TensorId) : Commit Unit :=
  Asking.operation allocate op origin anchor kept

/- Bring back one of the tensors that an operation reads. -/
def bringBack
    (anchor : Nat)
    (reads : List TensorId)
    (t : TensorId) : Commit Unit :=
  Asking.bringBack allocate anchor reads t

/- Commit the next operation of the program. -/
def next (window : Nat) : Commit Unit :=
  Asking.next allocate window

/- Commit every operation of a program. -/
def all
    (program : List Operation)
    (lookahead : Nat) : Commit Unit :=
  Asking.all allocate program lookahead

end Commit

------------------------------------------------------------
-- Programs
------------------------------------------------------------

/- Fail at an operation of a program whose tensors must be known. -/
def programFault
    {α : Type}
    (table : TensorTable)
    (i : Nat)
    (op : Operation)
    (fault : String → ScheduleFault)
    (t : TensorId) : Except CompileError α := do
  op.checkMentions table
  .error (.scheduling (fault (table.name t))
    (s!"operation {i}: " ++ op.describe table))

/-
  The cycles that the operations of a program take on each unit,
  if every tensor is defined once and before it is read.
-/
def checkProgram
    (m : Machine)
    (table : TensorTable) :
    Nat → List TensorId → UnitCycles → List Operation → Except CompileError UnitCycles
| _, _, backlog, [] => .ok backlog
| i, defined, backlog, op :: ops =>
    match op.reads.find? (fun t => t ∉ defined) with
    | some t => programFault table i op .readBeforeDefined t
    | none =>
        match op.writes.filter (fun t => t ∈ defined) with
        | some t => programFault table i op .definedTwice t
        | none => do
            let cycles ← op.cycles m table
            let waiting := Count.addSat (backlog.get op.resource) cycles
            checkProgram m table (i + 1) (op.writes.toList ++ defined)
              (backlog.set op.resource waiting) ops

/- A run that has committed nothing of a program. -/
def Run.start
    (bench : Workbench)
    (program : List Operation)
    (backlog : UnitCycles) : Run :=
  { toLedger := Ledger.start program
    bench
    backlog
    agrees := Ledger.agrees_start program }

/- Commit every operation of a program that passes the checks. -/
def Workbench.schedule
    (program : List Operation)
    (lookahead : Nat) : EStateM CompileError Workbench Schedule := fun bench =>
  match checkProgram bench.machine bench.tensors 0 [] UnitCycles.zero program with
  | .error e => .error e bench
  | .ok backlog =>
      match Commit.all program lookahead (Run.start bench program backlog) with
      | .ok _ run => .ok run.schedule run.bench
      | .error e run => .error e run.bench

end Systolic
