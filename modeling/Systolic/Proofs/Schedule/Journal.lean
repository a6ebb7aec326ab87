import Systolic.Proofs.Program.Emission
import Systolic.Proofs.Schedule.Legal

/-
  This file defines the journal of a scheduler: what it has done
  so far, with the committed operations as a schedule lists them
  and with their instructions. The steps of a journal are steps
  of a scheduler that enter at most one operation each.

  Key definitions include:
    * `Task`
    * `Journal`
    * `Journal.Enters`
    * `Journal.Step`
    * `Journal.Steps`

  Key theorems include:
    * `Journal.Step.view`
    * `Journal.Steps.view`
-/

namespace Systolic

------------------------------------------------------------
-- Tasks
------------------------------------------------------------

/-
  A program on a machine with memories of given capacities, the
  number of pending operations that are looked at, and whether
  the program is known to be lowered for the machine.
-/
structure Task where
  machine : Machine
  layout : WordLayout
  capacity : MemoryKind → Nat
  program : List Operation
  window : Nat
  lowered : Prop

/- Free regions hold what the present bindings leave of a memory. -/
structure View.Spares
    (v : View)
    (kind : MemoryKind)
    (capacity : Nat)
    (l : FreeList) : Prop where
  sound : l.Sound
  capacity_eq : l.capacity = capacity
  free_iff :
    ∀ a, l.Free a ↔
      a < capacity ∧
        ∀ b, v.Present b → b.kind = kind → ¬ b.region.Has a

/- A binding is at the place that fits its tensor best. -/
def Task.Fits
    (task : Task)
    (v : View)
    (b : Binding) : Prop :=
  ∃ tensor l, v.tensors.get? b.tensor = some tensor ∧
    v.Spares b.kind (task.capacity b.kind) l ∧
    l.bestFit tensor.layout.depth tensor.layout.alignment =
      some b.address

------------------------------------------------------------
-- Journals
------------------------------------------------------------

/-
  A view with the committed operations and their instructions,
  oldest first.
-/
structure Journal where
  view : View
  ops : List CommittedOp
  emitted : List Encoded

/- The journal of a run. -/
def Run.journal (run : Run) : Journal :=
  { view := run.view
    ops := run.committed.reverse
    emitted := run.emitted.reverse }

namespace Journal

/- The number of instructions of the committed operations. -/
def instructionCount (j : Journal) : Nat :=
  match j.ops.getLast? with
  | none => 0
  | some c => c.lastInstruction

/- A journal with one more operation. -/
def entered
    (j : Journal)
    (v : View)
    (c : CommittedOp)
    (e : Encoded) : Journal :=
  { view := v, ops := j.ops ++ [c], emitted := j.emitted ++ [e] }

/-
  A committed operation that is encoded with its tensors in given
  places, and whose instructions follow those that were there. If
  its program is lowered, they stay inside the regions of its
  tensors.
-/
structure Records
    (task : Task)
    (count : Nat)
    (p : Placement)
    (c : CommittedOp)
    (e : Encoded) : Prop where
  encoded : c.operation.encode task.layout p = .ok e
  resource_eq : c.resource = c.operation.resource
  first_eq : c.firstInstruction = count
  last_eq : c.lastInstruction = count + e.instructions.length
  confined :
    task.lowered → ∀ i ∈ e.instructions, i.Confined (p.Lends c.operation)

/-
  Where an operation finds its tensors during a step: a tensor
  is on the chip before it or after it.
-/
structure Shows
    (task : Task)
    (v v' : View)
    (p : Placement) : Prop where
  machine_eq : p.machine = task.machine
  tensors_eq : p.tensors = v'.tensors
  binding :
    ∀ t b, p.memory.binding? t = some b →
      b.tensor = t ∧ (v.Present b ∨ v'.Present b)

/- An operation is entered in a journal during a step. -/
def Enters
    (task : Task)
    (j : Journal)
    (v : View)
    (c : CommittedOp)
    (e : Encoded) : Prop :=
  ∃ p, Shows task j.view v p ∧ Records task j.instructionCount p c e

end Journal

------------------------------------------------------------
-- Steps
------------------------------------------------------------

/- An operation that commits is not pending any more. -/
theorem View.CanCommit.pending_ne
    {v : View}
    {i : Nat}
    {op : Operation}
    {bs : List Binding}
    (hCommit : v.CanCommit i op bs) :
    (v.committed i op bs).pending ≠ v.pending := by
  intro hSame
  have hLength := congrArg List.length hSame
  have hPos := List.length_pos_of_mem hCommit.pending
  rw [committed, List.length_eraseP_of_mem hCommit.pending
    (by simp)] at hLength
  omega

namespace View.Step

variable {v v' : View} {op : Operation}

/- A step that commits nothing ends the binding of a tensor. -/
theorem silent_cases
    (hStep : v.Step v')
    (hDone : v'.done = v.done) :
    ∃ t time spilled, v'.history = close v.history t time spilled := by
  cases hStep with
  | leave hLeaves =>
      cases hLeaves with
      | copied => exact ⟨_, _, _, rfl⟩
      | stored => simp at hDone
  | reload => simp at hDone
  | commit => simp [committed] at hDone
  | drop => exact ⟨_, _, _, rfl⟩

/-
  An operation that is not taken from the pending ones stores a
  tensor that leaves the chip, or brings one back.
-/
theorem added_cases
    (hStep : v.Step v')
    (hPending : v'.pending = v.pending)
    (hDone : v'.done = v.done ++ [op]) :
    (∃ t, op = .spill t ∧ v.OnChip t ∧ v.Leaves t v') ∨
      ∃ t b, op = .reload t ∧ v.Places t b ∧ v.Defined t ∧
        ¬ v.Unread t ∧ v'.history = v.history ++ [b] := by
  cases hStep with
  | leave hLeaves =>
      left
      have hLeaves' := hLeaves
      cases hLeaves with
      | copied => simp at hDone
      | @stored b _ hPresent hTensor =>
          cases List.append_cancel_left hDone
          exact ⟨_, rfl, ⟨b, hPresent, hTensor⟩, hLeaves'⟩
  | reload hPlaces _ _ _ hDefined hRead =>
      right
      cases List.append_cancel_left hDone
      exact ⟨_, _, rfl, hPlaces, hDefined, hRead, rfl⟩
  | commit hCommit => exact absurd hPending hCommit.pending_ne
  | drop => simp at hDone

/- A step commits one operation at most. -/
theorem done_cases
    (hStep : v.Step v') :
    v'.done = v.done ∨ ∃ op, v'.done = v.done ++ [op] := by
  cases hStep with
  | leave hLeaves =>
      cases hLeaves with
      | copied => exact .inl rfl
      | stored => exact .inr ⟨_, rfl⟩
  | reload => exact .inr ⟨_, rfl⟩
  | commit => exact .inr ⟨_, rfl⟩
  | drop => exact .inl rfl

/-
  An operation that is committed stores a tensor that leaves the
  chip, or it finds what it reads and gets bindings for what it
  writes.
-/
theorem entered_cases
    (hStep : v.Step v')
    (hDone : v'.done = v.done ++ [op]) :
    (∃ t, op = .spill t ∧ v.OnChip t ∧
      v'.history = close v.history t v.position true) ∨
    ∃ bs, List.Forall₂ v.Places op.writes.toList bs ∧
      (∀ t ∈ op.reads, v.OnChip t) ∧
      v'.history = v.history ++ bs := by
  cases hStep with
  | leave hLeaves =>
      left
      cases hLeaves with
      | copied => simp at hDone
      | @stored b _ hPresent hTensor =>
          cases List.append_cancel_left hDone
          exact ⟨_, rfl, ⟨b, hPresent, hTensor⟩, rfl⟩
  | reload hPlaces =>
      right
      cases List.append_cancel_left hDone
      refine ⟨_, .cons hPlaces .nil, ?_, rfl⟩
      intro t hReads
      cases hReads
  | commit hCommit =>
      right
      cases List.append_cancel_left hDone
      exact ⟨_, hCommit.writes, hCommit.reads, rfl⟩
  | drop => simp at hDone

end View.Step

namespace Journal

/-
  One step of a scheduler with its entry. A step that commits
  nothing is silent, an operation that the scheduler adds has no
  place in the program, and an operation of the program is one
  of those that are looked at, with its result where it fits.
-/
inductive Step
    (task : Task)
    (j : Journal) : Journal → Prop
| silent {v : View}
    (hStep : j.view.Step v)
    (hPending : v.pending = j.view.pending)
    (hDone : v.done = j.view.done) :
    Step task j { j with view := v }
| insert {v : View} {c : CommittedOp} {e : Encoded}
    (hStep : j.view.Step v)
    (hPending : v.pending = j.view.pending)
    (hDone : v.done = j.view.done ++ [c.operation])
    (hOrigin : c.origin = none)
    (hEnters : j.Enters task v c e) :
    Step task j (j.entered v c e)
| commit {i : Nat} {bs : List Binding} {c : CommittedOp} {e : Encoded}
    (hCommit : j.view.CanCommit i c.operation bs)
    (hWindow : (i, c.operation) ∈ j.view.pending.take task.window)
    (hOrigin : c.origin = some i)
    (hEnters :
      j.Enters task (j.view.committed i c.operation bs) c e)
    (hFits : ∀ b ∈ bs, task.Fits j.view b) :
    Step task j (j.entered (j.view.committed i c.operation bs) c e)

/- Any number of steps. -/
def Steps (task : Task) : Journal → Journal → Prop :=
  Relation.ReflTransGen (Step task)

variable {task : Task} {j j' : Journal}

/- Without its entry, a step is one of the scheduler. -/
theorem Step.view
    (hStep : j.Step task j') :
    j.view.Step j'.view := by
  cases hStep with
  | silent hStep => exact hStep
  | insert hStep => exact hStep
  | commit hCommit => exact .commit hCommit

theorem Steps.view
    (hSteps : j.Steps task j') :
    j.view.Steps j'.view := by
  induction hSteps with
  | refl => exact .refl
  | tail _ hStep ih => exact ih.tail hStep.view

/- The journal of a program of which nothing is committed. -/
def start
    (bench : Workbench)
    (program : List Operation) : Journal :=
  { view := .start bench program, ops := [], emitted := [] }

end Journal

theorem Run.instructionCount_journal (run : Run) :
    run.journal.instructionCount = run.streamed := by
  unfold Journal.instructionCount journal
  rw [List.getLast?_reverse, run.agrees.last]
  cases run.committed <;> rfl

end Systolic
