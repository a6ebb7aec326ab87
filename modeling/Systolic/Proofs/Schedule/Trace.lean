import Systolic.Proofs.Schedule.Order
import Systolic.Proofs.Schedule.Replay

/-
  This file proves that the history of the memories on the chip
  tells where the tensors of every committed operation are: each
  operand has one binding that holds when the operation runs,
  each result has a binding that starts with it, and bindings
  that share vectors follow each other in time.

  Key definitions include:
    * `Atlas.Serves`
    * `View.Traced`
    * `Memory.Traces`

  Key theorems include:
    * `View.Step.operand?`
    * `View.Step.result?`
    * `View.Traced.step`
    * `Workbench.schedule_traces`
-/

namespace Systolic

------------------------------------------------------------
-- Operands and Results
------------------------------------------------------------

/- The operands and the result of an operation have places. -/
structure Atlas.Serves
    (A : Atlas)
    (position : Nat)
    (op : Operation) : Prop where
  operand : ∀ t ∈ op.reads, ∃ place, A.operand? position t = some place
  result : ∀ t ∈ op.writes, ∃ place, A.result? position t = some place

theorem Atlas.Serves.mono
    {A A' : Atlas}
    {position p : Nat}
    {op : Operation}
    (hServes : A.Serves p op)
    (hAgrees : A.Agrees position A')
    (hBefore : p < position) :
    A'.Serves p op where
  operand := by
    intro t hT
    rcases hServes.operand t hT with ⟨place, hPlace⟩
    exact ⟨place, hAgrees.operand p hBefore t place hPlace⟩
  result := by
    intro t hT
    rcases hServes.result t hT with ⟨place, hPlace⟩
    exact ⟨place, hAgrees.result p hBefore t place hPlace⟩

namespace View

variable {v v' : View} {op : Operation} {b : Binding}

section

variable (hSettled : v.Settled) (hStep : v.Step v')
variable (hDone : v'.done = v.done ++ [op])
include hSettled hStep hDone

/- What is on the chip can be read by the operation of the step. -/
theorem Step.operand?
    (hPresent : v.Present b) :
    v'.atlas.operand? v.position b.tensor = some b.span := by
  have hNow := operand?_of_present hSettled hPresent
  unfold atlas
  rcases hStep.entered_cases hDone with
    ⟨t, -, -, hHistory⟩ | ⟨bs, hPlaces, -, hHistory⟩
  · rw [hHistory, Atlas.operand?_close (Nat.le_refl _)]
    exact hNow
  · rw [hHistory, Atlas.operand?_append]
    · exact hNow
    · intro c hC
      rcases places_cases hPlaces with ⟨-, rfl⟩ | ⟨t, d, -, rfl, hD⟩
      · cases hC
      · rw [List.mem_singleton.mp hC, hD.started]

/- What is on the chip after a step was there, or it is a result. -/
theorem Step.result?
    (hPresent : v'.Present b) :
    v.Present b ∨
      v'.atlas.result? v.position b.tensor = some b.span := by
  rcases hStep.entered_cases hDone with
    ⟨t, -, -, hHistory⟩ | ⟨bs, hPlaces, -, hHistory⟩
  · exact .inl ((present_close hHistory).mp hPresent).1
  · rcases places_cases hPlaces with ⟨-, rfl⟩ | ⟨t, c, -, rfl, hC⟩
    · rw [List.append_nil] at hHistory
      left
      unfold Present at hPresent ⊢
      rw [← hHistory]
      exact hPresent
    · rcases (present_place hHistory hC.opened).mp hPresent with
        hOld | rfl
      · exact .inl hOld
      · right
        unfold atlas
        rw [hHistory, hC.tensor_eq]
        exact result?_of_places hSettled hC

/- The operation of a step is served by the bindings after it. -/
theorem Step.serves :
    v'.atlas.Serves v.position op := by
  constructor
  case operand =>
    intro t hReads
    have hOn : v.OnChip t := by
      rcases hStep.entered_cases hDone with
        ⟨u, rfl, hOn, -⟩ | ⟨bs, -, hOn, -⟩
      · rw [List.mem_singleton.mp hReads]
        exact hOn
      · exact hOn t hReads
    rcases hOn with ⟨b, hPresent, rfl⟩
    exact ⟨b.span, hStep.operand? hSettled hDone hPresent⟩
  case result =>
    intro t hWrites
    rcases hStep.entered_cases hDone with
      ⟨u, rfl, -, -⟩ | ⟨bs, hPlaces, -, hHistory⟩
    · cases hWrites
    · rcases places_cases hPlaces with ⟨hNone, -⟩ | ⟨u, b, hU, rfl, hB⟩
      · cases hNone.symm.trans hWrites
      · cases hU.symm.trans hWrites
        unfold atlas
        rw [hHistory]
        exact ⟨b.span, result?_of_places hSettled hB⟩

end

/- All committed operations are served by the bindings. -/
def Traced (v : View) : Prop :=
  ∀ (k : Nat) (op : Operation), v.done[k]? = some op →
    v.atlas.Serves k op

/- A step serves its operation, and the others as before. -/
theorem Traced.step
    (hSettled : v.Settled)
    (hTraced : v.Traced)
    (hStep : v.Step v') :
    v'.Traced := by
  have hOld :
      ∀ (k : Nat) (op : Operation), v.done[k]? = some op →
        v'.atlas.Serves k op := by
    intro k op hGet
    exact (hTraced k op hGet).mono hStep.agrees
      (List.getElem?_eq_some_iff.mp hGet).1
  intro k op hGet
  rcases hStep.done_cases with hDone | ⟨last, hDone⟩
  · rw [hDone] at hGet
    exact hOld k op hGet
  · rw [hDone] at hGet
    rcases getElem?_push_cases hGet with ⟨-, hBefore⟩ | ⟨rfl, rfl⟩
    · exact hOld k op hBefore
    · exact hStep.serves hSettled hDone

end View

------------------------------------------------------------
-- Histories
------------------------------------------------------------

/-
  A history that tells where the tensors of operations are.
  Bindings that share vectors follow each other, and all are
  inside the memories. Of an operand there is one binding that
  starts before its operation and does not end before it, and of
  a result there is one that starts with its operation. In the
  end nothing is bound.
-/
structure Memory.Traces
    (m : Memory)
    (ops : List Operation) : Prop where
  succession :
    m.history.Pairwise (fun b c =>
      b.kind = c.kind → b.region.Overlaps c.region →
        ∃ stop ∈ b.releasedAt, stop ≤ c.allocatedAt)
  inside : ∀ b ∈ m.history, b.region.stop ≤ m.capacity b.kind
  operand :
    ∀ (p : Nat) (op : Operation), ops[p]? = some op →
      ∀ t ∈ op.reads,
        m.history.countP (fun b => b.tensor = t ∧ b.ServesAt p) = 1
  result :
    ∀ (p : Nat) (op : Operation), ops[p]? = some op →
      ∀ t ∈ op.writes,
        ∃ b ∈ m.history, b.tensor = t ∧ b.allocatedAt = p
  released : ∀ b ∈ m.history, b.releasedAt.isSome
  used_eq : ∀ kind, m.used kind = 0

/- Members that exclude each other are counted once. -/
theorem countP_eq_one
    {α : Type}
    {l : List α}
    {p : α → Bool}
    (hApart : l.Pairwise (fun a b => p a → ¬ p b))
    (hSome : ∃ a ∈ l, p a) :
    l.countP p = 1 := by
  induction l with
  | nil =>
      rcases hSome with ⟨a, hMem, -⟩
      cases hMem
  | cons a l ih =>
      rcases List.pairwise_cons.mp hApart with ⟨hHead, hTail⟩
      by_cases hA : p a
      · rw [List.countP_cons_of_pos hA,
          List.countP_eq_zero.mpr (fun b hB => hHead b hB hA)]
      · rw [List.countP_cons_of_neg hA]
        refine ih hTail ?_
        rcases hSome with ⟨b, hMem, hB⟩
        rcases List.mem_cons.mp hMem with rfl | hRest
        · exact absurd hB hA
        · exact ⟨b, hRest, hB⟩

/- Two bindings of a tensor never serve one operation. -/
theorem View.Settled.countP_serves
    {v : View}
    {t : TensorId}
    {p : Nat}
    {place : Span}
    (hSettled : v.Settled)
    (hPlace : v.atlas.operand? p t = some place) :
    v.history.countP (fun b => b.tensor = t ∧ b.ServesAt p) = 1 := by
  apply countP_eq_one
  · refine hSettled.succession.imp ?_
    intro b c hOrder hB hC
    rcases of_decide_eq_true hB with ⟨hTensor, -, hUntil⟩
    rcases of_decide_eq_true hC with ⟨hTensor', hFrom, -⟩
    rcases hOrder (.inl (hTensor.trans hTensor'.symm)) with
      ⟨stop, hStop, hLe⟩
    have hServes := hUntil stop hStop
    omega
  · rcases Option.map_eq_some_iff.mp hPlace with ⟨b, hFind, -⟩
    exact ⟨b, List.mem_of_find?_eq_some hFind,
      by simpa using List.find?_some hFind⟩

/- Without an open binding nothing is in use. -/
theorem Memory.Sound.used_eq_zero
    {m : Memory}
    {pins : List TensorId}
    (hSound : m.Sound pins)
    (hReleased : ∀ b ∈ m.history, b.releasedAt.isSome)
    (kind : MemoryKind) :
    m.used kind = 0 := by
  have hNone : m.residents = [] := by
    rw [List.eq_nil_iff_forall_not_mem]
    intro r hR
    rcases hSound.recorded r hR with ⟨hGet, hOpen⟩
    have hClosed := hReleased r.binding (List.mem_of_getElem? hGet)
    rw [hOpen] at hClosed
    cases hClosed
  rw [← hSound.sum_live kind, live, hNone]
  rfl

/- What is on the chip is awaited, so in the end there is nothing. -/
theorem Workbench.Schedules.released
    {task : Task}
    {bench : Workbench}
    {run : Run}
    (hSchedules : bench.Schedules task run) :
    ∀ b ∈ run.view.history, b.releasedAt.isSome := by
  intro b hMem
  cases hStop : b.releasedAt with
  | some stop => rfl
  | none =>
      have hRead := hSchedules.awaited b.tensor ⟨b, ⟨hMem, hStop⟩, rfl⟩
      refine absurd ?_ hRead
      intro p hP
      rw [hSchedules.pending] at hP
      cases hP

/-
  The history after a schedule that starts with empty memories
  tells where the tensors of its operations are, and the
  capacities of the memories are those at the start.
-/
theorem Workbench.schedule_traces
    {near far lookahead : Nat}
    {program : List Operation}
    {bench bench' : Workbench}
    {s : Schedule}
    (hEmpty : bench.memory = .empty near far)
    (hSchedule : schedule program lookahead bench = .ok s bench') :
    bench'.memory.Traces (s.ops.map (·.operation)) ∧
    ∀ kind, bench'.memory.capacity kind = bench.memory.capacity kind := by
  rcases schedules_of_ok hEmpty hSchedule with
    ⟨run, hSchedules, rfl, rfl⟩
  have hSettled := hSchedules.legal.toSettled
  have hMemory := hSchedules.sound.memory
  have hReleased := hSchedules.released
  have hTraced : run.view.Traced :=
    hSchedules.invariant (P := fun j => j.view.Traced)
      (by simp [View.Traced, Journal.start, View.start])
      (fun j j' hLegal hBefore hStep =>
        hBefore.step hLegal.toSettled hStep.view)
  have hDone : run.schedule.ops.map (·.operation) = run.view.done := by
    simp [Run.schedule, Run.view]
  rw [hDone]
  refine ⟨?_, hSchedules.sound.capacity⟩
  constructor
  case succession =>
    refine hSettled.succession.imp ?_
    intro b c hOrder hKind hOverlaps
    exact hOrder (.inr ⟨hKind, hOverlaps⟩)
  case inside => exact fun b hMem => (hMemory.inside b hMem).2
  case operand =>
    intro p op hGet t hReads
    rcases (hTraced p op hGet).operand t hReads with ⟨place, hPlace⟩
    exact hSettled.countP_serves hPlace
  case result =>
    intro p op hGet t hWrites
    rcases (hTraced p op hGet).result t hWrites with ⟨place, hPlace⟩
    rcases Option.map_eq_some_iff.mp hPlace with ⟨b, hFind, -⟩
    exact ⟨b, List.mem_of_find?_eq_some hFind,
      by simpa using List.find?_some hFind⟩
  case released => exact hReleased
  case used_eq => exact hMemory.used_eq_zero hReleased

/-
  With one vector in each memory, both rectified inputs leave the
  chip and come back, and all ten bindings have the only region
  of their memory.
-/
theorem Workbench.schedule_traces_rectifiedSum :
    ∃ x : Scheduled,
      x.before.memory = .empty 1 1 ∧
      schedule x.program 8 x.before = .ok x.schedule x.after ∧
      x.schedule.spills = 2 ∧ x.schedule.reloads = 2 ∧
      x.after.memory.history.map (fun b => (b.address, b.size)) =
        List.replicate 10 (0, 1) ∧
      x.after.memory.Traces (x.schedule.ops.map (·.operation)) := by
  have hFacts :
      (scheduleNetwork? rectifiedSum ["sum"] oneVector 8).map
        (fun x =>
          (x.before.memory, x.schedule.spills, x.schedule.reloads,
            x.after.memory.history.map (fun b => (b.address, b.size)))) =
      some (.empty 1 1, 2, 2, List.replicate 10 (0, 1)) := by
    decide +kernel
  rcases Option.map_eq_some_iff.mp hFacts with ⟨x, hScheduled, hSeen⟩
  simp only [Prod.mk.injEq] at hSeen
  rcases hSeen with ⟨hEmpty, hSpills, hReloads, hRegions⟩
  have hSchedule := (scheduleNetwork?_eq_some hScheduled).2
  exact ⟨x, hEmpty, hSchedule, hSpills, hReloads, hRegions,
    (schedule_traces hEmpty hSchedule).1⟩

end Systolic
