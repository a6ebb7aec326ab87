import Systolic.Proofs.Compile.Stages
import Systolic.Proofs.Schedule.Trace

/-
  This file proves that every instruction of a compiled network
  stays inside the regions of its own operation: those on the
  chip that hold the tensors of the operation when it runs, and
  the places in DRAM of the tensor that it moves.

  Key definitions include:
    * `Atlas.Lends`
    * `Journal.Confines`
    * `Compiled.Lends`

  Key theorems include:
    * `Journal.Confines.enter`
    * `Journal.Confines.step`
    * `compile_confines`
-/

namespace Systolic

------------------------------------------------------------
-- Regions of an Operation
------------------------------------------------------------

/-
  The regions that the operation at a position may touch: where
  its operands are, where its result goes, and the places in DRAM,
  inside their bank, of the tensor that it moves.
-/
inductive Atlas.Lends
    (A : Atlas)
    (m : Machine)
    (position : Nat)
    (op : Operation) : Span → Prop
| operand {t : TensorId} {place : Span}
    (hMem : t ∈ op.mentions)
    (hPlace : A.operand? position t = some place) :
    Lends A m position op place
| result {t : TensorId} {place : Span}
    (hMem : t ∈ op.mentions)
    (hPlace : A.result? position t = some place) :
    Lends A m position op place
| inDram {slot : DramSlot} {tensor : Tensor} {l : DramLocation}
    (hMoves : op.resource ≠ .compute)
    (hEntry : A.tensors.get? op.subject = some tensor)
    (hSlot : tensor.slot? slot = some l)
    (hInside :
      l.address + tensor.layout.depth ≤ m.bankDepth l.bank) :
    Lends A m position op (tensor.span l)

/- What an atlas lends before a position, a larger one lends. -/
theorem Atlas.Lends.mono
    {A A' : Atlas}
    {m : Machine}
    {position p : Nat}
    {op : Operation}
    {r : Span}
    (hLends : A.Lends m p op r)
    (hAgrees : A.Agrees position A')
    (hBefore : p < position) :
    A'.Lends m p op r := by
  cases hLends with
  | operand hMem hPlace =>
      exact .operand hMem (hAgrees.operand p hBefore _ _ hPlace)
  | result hMem hPlace =>
      exact .result hMem (hAgrees.result p hBefore _ _ hPlace)
  | @inDram slot tensor l hMoves hEntry hSlot hInside =>
      rcases hAgrees.tensors op.subject tensor hEntry with
        ⟨grown, hGrown, hGrows, -⟩
      have hSpan : tensor.span l = grown.span l := by
        simp only [Tensor.span, hGrows.layout_eq]
      rw [hSpan]
      rw [← hGrows.layout_eq] at hInside
      exact .inDram hMoves hGrown (hGrows.slot?_eq hSlot) hInside

/- What is in place during a step is lent after it. -/
theorem Journal.Shows.lends
    {task : Task}
    {v v' : View}
    {p : Placement}
    {op : Operation}
    {r : Span}
    (hSettled : v.Settled)
    (hStep : v.Step v')
    (hDone : v'.done = v.done ++ [op])
    (hShows : Shows task v v' p)
    (hLends : p.Lends op r) :
    v'.atlas.Lends task.machine v.position op r := by
  cases hLends with
  | @onChip t b hMem hBinding =>
      rcases hShows.binding t b hBinding with ⟨rfl, hPresent⟩
      have hCases :
          v.Present b ∨
            v'.atlas.result? v.position b.tensor = some b.span := by
        rcases hPresent with hBefore | hAfter
        · exact .inl hBefore
        · exact hStep.result? hSettled hDone hAfter
      rcases hCases with hOperand | hResult
      · exact .operand hMem (hStep.operand? hSettled hDone hOperand)
      · exact .result hMem hResult
  | inDram hMoves hEntry hSlot hInside =>
      rw [hShows.tensors_eq] at hEntry
      rw [hShows.machine_eq] at hInside
      exact .inDram hMoves hEntry hSlot hInside

------------------------------------------------------------
-- Journals
------------------------------------------------------------

namespace Journal

/- All instructions, oldest first. -/
def instructions (j : Journal) : List Instruction :=
  j.emitted.flatMap (·.instructions)

/-
  Every instruction is in the range of a committed operation, and
  those in the range of an operation are confined to its regions.
-/
structure Confines
    (task : Task)
    (j : Journal) : Prop where
  position : j.ops.length = j.view.position
  count : j.instructionCount = j.instructions.length
  covered :
    ∀ n < j.instructions.length, ∃ (k : Nat) (c : CommittedOp),
      j.ops[k]? = some c ∧ c.firstInstruction ≤ n ∧
        n < c.lastInstruction
  confined :
    ∀ (k : Nat) (c : CommittedOp), j.ops[k]? = some c →
      ∀ n, c.firstInstruction ≤ n → n < c.lastInstruction →
        ∃ i, j.instructions[n]? = some i ∧
          i.Confined (j.view.atlas.Lends task.machine k c.operation)

namespace Confines

variable {task : Task} {j j' : Journal} {v : View}

/- Regions of committed operations stay in every step. -/
theorem lends_step
    {k : Nat}
    {c : CommittedOp}
    {r : Span}
    (hConfines : j.Confines task)
    (hStep : j.view.Step v)
    (hGet : j.ops[k]? = some c)
    (hLends : j.view.atlas.Lends task.machine k c.operation r) :
    v.atlas.Lends task.machine k c.operation r := by
  have hBefore := (List.getElem?_eq_some_iff.mp hGet).1
  rw [hConfines.position] at hBefore
  exact hLends.mono hStep.agrees hBefore

theorem silent
    (hConfines : j.Confines task)
    (hStep : j.view.Step v)
    (hDone : v.done = j.view.done) :
    Confines task { j with view := v } := by
  constructor
  case position =>
    change j.ops.length = v.done.length
    rw [hDone]
    exact hConfines.position
  case count => exact hConfines.count
  case covered => exact hConfines.covered
  case confined =>
    intro k c hGet n hFirst hLast
    rcases hConfines.confined k c hGet n hFirst hLast with
      ⟨i, hI, hConfined⟩
    exact ⟨i, hI, hConfined.mono
      (fun r hR => hConfines.lends_step hStep hGet hR)⟩

/- An operation is entered with confined instructions. -/
theorem enter
    {c : CommittedOp}
    {e : Encoded}
    (hLowered : task.lowered)
    (hSettled : j.view.Settled)
    (hConfines : j.Confines task)
    (hStep : j.view.Step v)
    (hDone : v.done = j.view.done ++ [c.operation])
    (hEnters : j.Enters task v c e) :
    (j.entered v c e).Confines task := by
  rcases hEnters with ⟨p, hShows, hRecords⟩
  have hFrom : c.firstInstruction = j.instructions.length :=
    hRecords.first_eq.trans hConfines.count
  have hTo :
      c.lastInstruction =
        j.instructions.length + e.instructions.length := by
    rw [hRecords.last_eq, hConfines.count]
  have hAll :
      (j.entered v c e).instructions =
        j.instructions ++ e.instructions := by
    simp [instructions, entered]
  constructor
  case position =>
    change (j.ops ++ [c]).length = v.done.length
    rw [hDone, List.length_append, List.length_append, hConfines.position]
    rfl
  case count =>
    rw [hAll, List.length_append, ← hTo]
    simp [instructionCount, entered]
  case covered =>
    intro n hN
    rw [hAll, List.length_append] at hN
    rcases Nat.lt_or_ge n j.instructions.length with hOld | hNew
    · rcases hConfines.covered n hOld with ⟨k, d, hGet, hRange⟩
      refine ⟨k, d, ?_, hRange⟩
      exact List.getElem?_append_left
        (List.getElem?_eq_some_iff.mp hGet).1 ▸ hGet
    · refine ⟨j.ops.length, c, List.getElem?_concat_length, ?_, ?_⟩
      · omega
      · omega
  case confined =>
    intro k d hGet n hFirst hLast
    rw [hAll]
    rcases getElem?_push_cases hGet with ⟨-, hOld⟩ | ⟨rfl, rfl⟩
    · rcases hConfines.confined k d hOld n hFirst hLast with
        ⟨i, hI, hConfined⟩
      refine ⟨i, ?_, hConfined.mono
        (fun r hR => hConfines.lends_step hStep hOld hR)⟩
      rw [List.getElem?_append_left (List.getElem?_eq_some_iff.mp hI).1]
      exact hI
    · have hInside : n - j.instructions.length < e.instructions.length := by
        omega
      refine ⟨e.instructions[n - j.instructions.length], ?_, ?_⟩
      · rw [List.getElem?_append_right (by omega)]
        exact List.getElem?_eq_getElem hInside
      · rw [hConfines.position]
        exact (hRecords.confined hLowered _
          (List.getElem_mem hInside)).mono
            (fun r hR => hShows.lends hSettled hStep hDone hR)

/- Every step keeps all instructions confined. -/
theorem step
    (hLowered : task.lowered)
    (hSettled : j.view.Settled)
    (hConfines : j.Confines task)
    (hStep : j.Step task j') :
    j'.Confines task := by
  cases hStep with
  | silent hStep _ hDone => exact hConfines.silent hStep hDone
  | insert hStep _ hDone _ hEnters =>
      exact hConfines.enter hLowered hSettled hStep hDone hEnters
  | commit hCommit _ _ hEnters =>
      exact hConfines.enter hLowered hSettled (.commit hCommit) rfl hEnters

end Confines

end Journal

------------------------------------------------------------
-- Compiled Networks
------------------------------------------------------------

/-
  The regions of an operation of a compiled network: those of
  tensors that it reads or writes, as long as they are live, and
  the home, the export and the spill of the tensor that it moves.
-/
inductive Compiled.Lends
    (c : Compiled)
    (position : Nat)
    (op : Operation) : Span → Prop
| onChip {b : Binding}
    (hMem : b ∈ c.bindings)
    (hNamed : b.tensor ∈ op.reads ∨ op.writes = some b.tensor)
    (hLive : b.LiveAt position) :
    Lends c position op b.span
| inDram {slot : DramSlot} {tensor : Tensor} {l : DramLocation}
    (hMoves : op.resource ≠ .compute)
    (hEntry : c.tensors.get? op.subject = some tensor)
    (hSlot : tensor.slot? slot = some l) :
    Lends c position op (tensor.span l)

/- What holds an operand is live when its operation runs. -/
theorem Atlas.operand?_live
    {A : Atlas}
    {p : Nat}
    {t : TensorId}
    {place : Span}
    (hPlace : A.operand? p t = some place) :
    ∃ b ∈ A.bindings, b.tensor = t ∧ b.LiveAt p ∧ b.span = place := by
  rcases Option.map_eq_some_iff.mp hPlace with ⟨b, hFind, hSpan⟩
  have hFound : b.tensor = t ∧ b.ServesAt p := by
    simpa using List.find?_some hFind
  exact ⟨b, List.mem_of_find?_eq_some hFind, hFound.1,
    ⟨Nat.le_of_lt hFound.2.1, hFound.2.2⟩, hSpan⟩

/- What takes a result is live from then on. -/
theorem View.Settled.result?_live
    {v : View}
    {p : Nat}
    {t : TensorId}
    {place : Span}
    (hSettled : v.Settled)
    (hPlace : v.atlas.result? p t = some place) :
    ∃ b ∈ v.history, b.tensor = t ∧ b.LiveAt p ∧ b.span = place := by
  rcases Option.map_eq_some_iff.mp hPlace with ⟨b, hFind, hSpan⟩
  have hMem : b ∈ v.history := List.mem_of_find?_eq_some hFind
  have hFound : b.tensor = t ∧ b.allocatedAt = p := by
    simpa using List.find?_some hFind
  refine ⟨b, hMem, hFound.1, ⟨Nat.le_of_eq hFound.2, ?_⟩, hSpan⟩
  intro stop hStop
  rw [← hFound.2]
  exact hSettled.lasting b hMem stop hStop

namespace Compiles

variable {ν : Type} [DecidableEq ν]
variable {net : Network ν} {outputs : List String} {m : Machine}
variable {lookahead : Nat} {nodes roots : List ν}
variable {s : Lowering ν} {run : Run}
variable {k : Nat} {op : Operation} {r : Span}

section

variable (hStages : Compiles net outputs m lookahead nodes roots s run)
include hStages

theorem confines :
    run.journal.Confines (.ofLowering m s lookahead) := by
  refine hStages.scheduled.invariant ?_ ?_
  · constructor <;>
      simp [Journal.start, Journal.instructions, View.start,
        Journal.instructionCount, View.position]
  · intro j j' hLegal hBefore hStep
    exact hBefore.step trivial hLegal.toSettled hStep

/- A region on the chip that is lent is inside its memory. -/
theorem binding_inside
    {b : Binding}
    (hMem : b ∈ run.view.history) :
    b.address + b.size ≤ m.depth b.kind.store := by
  have hSound := hStages.scheduled.sound
  have hInside := (hSound.memory.inside b hMem).2
  rw [hSound.capacity] at hInside
  exact hInside

/- What a schedule lends is live, and it is inside its memory. -/
theorem lends
    (hLends : run.view.atlas.Lends m k op r) :
    (Compiled.ofBench run.bench run.schedule).Lends k op r ∧
      r.start + r.length ≤ m.depth r.store ∧
      r.start + r.length ≤ Count.limit := by
  have hFacts := hStages.scheduled.sound.lowered trivial
  have hSettled := hStages.scheduled.legal.toSettled
  have hOnChip :
      ∀ b ∈ run.view.history, b.tensor ∈ op.mentions → b.LiveAt k →
        (Compiled.ofBench run.bench run.schedule).Lends k op b.span ∧
          b.span.start + b.span.length ≤ m.depth b.span.store ∧
          b.span.start + b.span.length ≤ Count.limit := by
    intro b hMem hNamed hLive
    have hInside := hStages.binding_inside hMem
    exact ⟨.onChip hMem (Operation.mem_reads_or_writes hNamed) hLive,
      hInside,
      Nat.le_trans hInside (hFacts.accepted.depth_le_limit b.kind)⟩
  cases hLends with
  | operand hMem hPlace =>
      rcases Atlas.operand?_live hPlace with ⟨b, hB, rfl, hLive, rfl⟩
      exact hOnChip b hB hMem hLive
  | result hMem hPlace =>
      rcases hSettled.result?_live hPlace with ⟨b, hB, rfl, hLive, rfl⟩
      exact hOnChip b hB hMem hLive
  | @inDram slot tensor l hMoves hEntry hSlot hInside =>
      refine ⟨.inDram hMoves hEntry hSlot, ?_,
        Nat.le_of_lt (slot_counted slot hFacts.laid hEntry hSlot)⟩
      change _ ≤ m.depth l.bank.store
      rw [m.depth_store_bank]
      exact hInside

end

end Compiles

/-
  Every instruction of a compiled network belongs to a committed
  operation, and those of an operation name vectors of its own
  regions only, so they stay inside the memories of the machine.
-/
theorem compile_confines
    {ν : Type}
    [DecidableEq ν]
    (net : Network ν)
    (outputs : List String)
    {m : Machine}
    {lookahead : Nat}
    {c : Compiled}
    (hCompile : compile net outputs m lookahead = .ok c) :
    (∀ n < c.schedule.instructions.length,
      ∃ (k : Nat) (op : CommittedOp), c.schedule.ops[k]? = some op ∧
        op.firstInstruction ≤ n ∧ n < op.lastInstruction) ∧
    ∀ (k : Nat) (op : CommittedOp), c.schedule.ops[k]? = some op →
      ∀ n, op.firstInstruction ≤ n → n < op.lastInstruction →
        ∃ i, c.schedule.instructions[n]? = some i ∧
          i.Confined (c.Lends k op.operation) ∧ i.Within m := by
  rcases compiles_of_compile hCompile with
    ⟨nodes, roots, s, run, hStages, rfl⟩
  have hConfines := hStages.confines
  refine ⟨hConfines.covered, ?_⟩
  intro k op hGet n hFirst hLast
  rcases hConfines.confined k op hGet n hFirst hLast with
    ⟨i, hI, hConfined⟩
  refine ⟨i, hI, ?_, ?_⟩
  · exact hConfined.mono (fun r hR => (hStages.lends hR).1)
  · exact hConfined.within (fun r hR => (hStages.lends hR).2)

/- A machine with room for two inputs and one result. -/
def fourVectors : Machine :=
  { Machine.standard with
    arraySize := 2, localDepth := 4, accumulatorDepth := 2 }

/- The multiplication of a product reads and fills its own regions. -/
theorem compile_confines_residualBlock :
    ∃ c op,
      compile residualBlock ["rectified", "sum"] fourVectors 8 = .ok c ∧
      c.schedule.ops[2]? = some op ∧
      op.operation = .matMul ⟨0⟩ ⟨1⟩ none ⟨2⟩ ∧
      c.schedule.instructions[3]? = some (.matMul false false 0 0 2) ∧
      (Instruction.matMul false false 0 0 2).Confined
        (c.Lends 2 op.operation) ∧
      (Instruction.matMul false false 0 0 2).Within fourVectors := by
  have hFacts :
      (compile residualBlock ["rectified", "sum"] fourVectors 8).toOption.bind
        (fun c => c.schedule.ops[2]?.map (fun op =>
          (op.operation, op.firstInstruction, op.lastInstruction,
            c.schedule.instructions[3]?))) =
      some (.matMul ⟨0⟩ ⟨1⟩ none ⟨2⟩, 2, 4,
        some (.matMul false false 0 0 2)) := by
    decide +kernel
  cases hCompile :
      compile residualBlock ["rectified", "sum"] fourVectors 8 with
  | error e =>
      rw [hCompile] at hFacts
      cases hFacts
  | ok c =>
      rw [hCompile] at hFacts
      rcases Option.map_eq_some_iff.mp hFacts with ⟨op, hGet, hOp⟩
      simp only [Prod.mk.injEq] at hOp
      rcases hOp with ⟨hOperation, hFirst, hLast, hInstruction⟩
      rcases (compile_confines residualBlock ["rectified", "sum"]
          hCompile).2 2 op hGet 3 (by omega) (by omega) with
        ⟨i, hI, hConfined, hWithin⟩
      cases hI.symm.trans hInstruction
      exact ⟨c, op, rfl, hGet, hOperation, hInstruction, hConfined,
        hWithin⟩

end Systolic
