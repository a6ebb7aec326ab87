import Systolic.Output.Compiled
import Systolic.Proofs.Program.Semantics
import Systolic.Proofs.Schedule.Program

/-
  This file proves that the program alone decides where tensors
  of the accumulator memory are placed. Operations on the array
  commit in the order of the program, no others write accumulator
  tensors, and such a tensor leaves once it is activated. So what
  is free when one is placed follows from those before it, with
  whatever else is scheduled in between. What the host provides
  and collects stays where it is.

  Key definitions include:
    * `View.Drains`
    * `View.Stacked`

  Key theorems include:
    * `View.Drains.step`
    * `View.Stacked.step`
    * `Workbench.Schedules.stacked`
    * `Workbench.Schedules.host_eq`
-/

namespace Systolic

------------------------------------------------------------
-- Placements
------------------------------------------------------------

/- A tensor with the region that it was given. -/
def Binding.slot (b : Binding) : TensorId × Region :=
  (b.tensor, b.region)

/-
  The tensors of the accumulator memory with their regions, in
  the order in which they were placed.
-/
def accumulated (history : List Binding) : List (TensorId × Region) :=
  (history.filter (fun b => b.kind = .accumulator)).map Binding.slot

/- The operations on the array. -/
def computed (ops : List Operation) : List Operation :=
  ops.filter (fun op => op.resource = .compute)

/- The regions of tensors that are not activated. -/
def live
    (ops : List Operation)
    (slots : List (TensorId × Region)) : List Region :=
  (slots.filter (fun s => s.1 ∉ activated ops)).map Prod.snd

/- Free regions hold what is left of a memory beside others. -/
structure FreeList.Complements
    (l : FreeList)
    (capacity : Nat)
    (taken : List Region) : Prop where
  sound : l.Sound
  capacity_eq : l.capacity = capacity
  free_iff : ∀ a, l.Free a ↔ a < capacity ∧ ¬ Covers taken a

/-
  How operations stack tensors in an accumulator memory of a
  given capacity, with the last operation and the last tensor
  first. A tensor is placed where it fits best beside those that
  are not activated.
-/
inductive Stacks
    (table : TensorTable)
    (capacity : Nat) :
    List Operation → List (TensorId × Region) → Prop
| nil : Stacks table capacity [] []
| pass {op : Operation} {ops : List Operation}
    {slots : List (TensorId × Region)}
    (hRest : Stacks table capacity ops slots)
    (hOther :
      ∀ t ∈ op.writes, ∀ tensor,
        ¬ table.Holds t .accumulator tensor) :
    Stacks table capacity (op :: ops) slots
| place {op : Operation} {ops : List Operation}
    {slots : List (TensorId × Region)} {t : TensorId} {tensor : Tensor}
    {l : FreeList} {address : Nat}
    (hRest : Stacks table capacity ops slots)
    (hWrites : op.writes = some t)
    (hHolds : table.Holds t .accumulator tensor)
    (hLeft : l.Complements capacity (live ops slots))
    (hFit :
      l.bestFit tensor.layout.depth tensor.layout.alignment =
        some address) :
    Stacks table capacity (op :: ops)
      ((t, { start := address, length := tensor.layout.depth }) :: slots)

/- What is taken of a memory decides where a request is placed. -/
theorem FreeList.Complements.bestFit_eq
    {l l' : FreeList}
    {capacity : Nat}
    {taken : List Region}
    (hLeft : l.Complements capacity taken)
    (hRight : l'.Complements capacity taken)
    (hPos : 0 < capacity) :
    l.bestFit = l'.bestFit := by
  apply hLeft.sound.bestFit_eq hRight.sound
  · rw [hLeft.capacity_eq]
    exact hPos
  · rw [hLeft.capacity_eq, hRight.capacity_eq]
  · intro a
    rw [hLeft.free_iff, hRight.free_iff]

/- Operations stack their tensors in one way only. -/
theorem Stacks.unique
    {table : TensorTable}
    {capacity : Nat}
    {ops : List Operation}
    {slots slots' : List (TensorId × Region)}
    (hPos : 0 < capacity)
    (hFirst : Stacks table capacity ops slots)
    (hSecond : Stacks table capacity ops slots') :
    slots = slots' := by
  induction hFirst generalizing slots' with
  | nil =>
      cases hSecond
      rfl
  | pass _ hOther ih =>
      cases hSecond with
      | pass hRest => exact ih hRest
      | place _ hWrites hHolds =>
          exact absurd hHolds (hOther _ hWrites _)
  | place _ hWrites hHolds hLeft hFit ih =>
      cases hSecond with
      | pass _ hOther => exact absurd hHolds (hOther _ hWrites _)
      | place hRest hWrites' hHolds' hLeft' hFit' =>
          cases ih hRest
          cases hWrites.symm.trans hWrites'
          cases hHolds.1.symm.trans hHolds'.1
          rw [hLeft.bestFit_eq hLeft' hPos] at hFit
          cases hFit.symm.trans hFit'
          rfl

theorem mem_accumulated
    {history : List Binding}
    {s : TensorId × Region} :
    s ∈ accumulated history ↔
      ∃ b ∈ history, b.kind = .accumulator ∧ b.slot = s := by
  simp [accumulated, and_assoc]

theorem accumulated_append
    (history bs : List Binding) :
    accumulated (history ++ bs) = accumulated history ++ accumulated bs := by
  simp [accumulated]

theorem accumulated_scratchpad
    {b : Binding}
    (hKind : b.kind = .scratchpad) :
    accumulated [b] = [] := by
  simp [accumulated, hKind]

/- The end of a binding does not move it. -/
theorem accumulated_close
    (history : List Binding)
    (t : TensorId)
    (time : Nat)
    (spilled : Bool) :
    accumulated (close history t time spilled) = accumulated history := by
  unfold accumulated close
  rw [List.filter_map, List.map_map]
  congr 1
  · funext b
    simp only [Function.comp_apply]
    split <;> rfl
  · congr 1
    funext b
    simp only [Function.comp_apply]
    split <;> rfl

theorem computed_append
    (ops ops' : List Operation) :
    computed (ops ++ ops') = computed ops ++ computed ops' :=
  List.filter_append _ _

theorem computed_singleton
    {op : Operation}
    (hArray : op.resource = .compute) :
    computed [op] = [op] := by
  simp [computed, hArray]

theorem computed_singleton_other
    {op : Operation}
    (hOther : op.resource ≠ .compute) :
    computed [op] = [] := by
  simp [computed, hOther]

/- Only operations on the array activate tensors. -/
theorem activated_computed (ops : List Operation) :
    activated (computed ops) = activated ops := by
  unfold activated computed
  rw [List.filterMap_filter]
  apply List.filterMap_congr
  intro op _
  cases op <;> rfl

namespace View

variable {n capacity : Nat} {table : TensorTable} {program : List Operation}
variable {v v' : View} {t : TensorId}
variable {bs : List Binding} {i : Nat} {op : Operation}

/- What moves tensors leaves the array and its results alone. -/
theorem Step.moves
    (hStep : v.Step v')
    (hPending : v'.pending = v.pending) :
    computed v'.done = computed v.done ∧
      accumulated v'.history = accumulated v.history := by
  cases hStep with
  | leave hLeaves =>
      cases hLeaves with
      | copied => exact ⟨rfl, accumulated_close _ _ _ _⟩
      | stored =>
          refine ⟨?_, accumulated_close _ _ _ _⟩
          rw [computed_append]
          exact List.append_nil _
  | reload _ hKind =>
      constructor
      · rw [computed_append]
        exact List.append_nil _
      · rw [accumulated_append, accumulated_scratchpad hKind,
          List.append_nil]
  | commit hCommit => exact absurd hPending hCommit.pending_ne
  | drop => exact ⟨rfl, accumulated_close _ _ _ _⟩

/- Of the pending operations on the array the first one commits. -/
theorem CanCommit.computed_pending
    (hCommit : v.CanCommit i op bs)
    (hQueued : v.Queued program) :
    computed (v.pending.map Prod.snd) =
      computed [op] ++
        computed ((v.committed i op bs).pending.map Prod.snd) := by
  rcases hQueued.split hCommit.pending with ⟨front, back, hSplit, hErase⟩
  rw [committed, hErase, hSplit, List.map_append, List.map_append,
    List.map_cons, computed_append, computed_append,
    ← List.singleton_append, computed_append]
  by_cases hArray : op.resource = .compute
  · have hFront : computed (front.map Prod.snd) = [] := by
      unfold computed
      rw [List.filter_eq_nil_iff]
      intro o hO hRuns
      rcases List.mem_map.mp hO with ⟨p, hP, rfl⟩
      have hSorted := hQueued.sorted
      rw [hSplit] at hSorted
      have hBefore := (List.pairwise_append.mp hSorted).2.2 p hP (i, op)
        List.mem_cons_self
      have hWaits : p ∈ v.pending := by
        rw [hSplit]
        exact List.mem_append_left _ hP
      have hLe := hCommit.oldest hArray p hWaits (of_decide_eq_true hRuns)
      exact Nat.not_lt.mpr hLe hBefore
    rw [hFront, List.nil_append, List.nil_append]
  · rw [computed_singleton_other hArray, List.nil_append, List.nil_append]

------------------------------------------------------------
-- Activated Tensors
------------------------------------------------------------

/-
  The accumulator tensors of a schedule are those of the table
  that it starts with. An activated one is not read any more, and
  no other one leaves the memory.
-/
structure Drains
    (table : TensorTable)
    (v : View) : Prop where
  grown : table.Extends v.tensors
  held :
    ∀ b ∈ v.history, b.kind = .accumulator →
      ∃ tensor, table.Holds b.tensor .accumulator tensor
  finished : ∀ t ∈ activated v.done, v.Unread t
  closed :
    ∀ b ∈ v.history, b.kind = .accumulator → b.releasedAt.isSome →
      b.tensor ∈ activated v.done

/- What a program writes has not changed much since the start. -/
theorem Drains.original
    {grown : Tensor}
    (hForm : WellFormed n table program)
    (hDrains : v.Drains table)
    (hWritten : t ∈ written program)
    (hEntry : v.tensors.get? t = some grown) :
    ∃ tensor, table.get? t = some tensor ∧ tensor.Grows grown := by
  rcases hForm.get?_written hWritten with ⟨tensor, hTensor⟩
  rcases hDrains.grown t tensor hTensor with ⟨grown', hGrown, hGrows⟩
  cases hEntry.symm.trans hGrown
  exact ⟨tensor, hTensor, hGrows⟩

/-
  While every tensor on the chip is awaited, those accumulator
  tensors are on it that are not activated.
-/
theorem Drains.opened_iff
    {b : Binding}
    (hDrains : v.Drains table)
    (hAwaited : v.Awaited)
    (hMem : b ∈ v.history)
    (hKind : b.kind = .accumulator) :
    b.releasedAt = none ↔ b.tensor ∉ activated v.done := by
  constructor
  · intro hOpen hActivated
    exact hAwaited b.tensor ⟨b, ⟨hMem, hOpen⟩, rfl⟩
      (hDrains.finished b.tensor hActivated)
  · intro hOther
    by_contra hClosed
    exact hOther (hDrains.closed b hMem hKind
      (Option.isSome_iff_ne_none.mpr hClosed))

theorem Drains.close
    {time : Nat}
    {spilled : Bool}
    (hDrains : v.Drains table)
    (hHistory : v'.history = Systolic.close v.history t time spilled)
    (hPending : v'.pending = v.pending)
    (hTensors : v.tensors.Extends v'.tensors)
    (hDone : computed v'.done = computed v.done)
    (hEnd :
      ∀ b, v.Present b → b.tensor = t → b.kind = .accumulator →
        t ∈ activated v.done) :
    v'.Drains table := by
  have hActivated : activated v'.done = activated v.done := by
    rw [← activated_computed, hDone, activated_computed]
  constructor
  case grown => exact hDrains.grown.trans hTensors
  case held =>
    intro b hB
    rw [hHistory, mem_close] at hB
    rcases hB with ⟨hOld, -⟩ | ⟨c, hC, -, -, rfl⟩
    · exact hDrains.held b hOld
    · exact hDrains.held c hC
  case finished =>
    intro u hU
    rw [hActivated] at hU
    exact (unread_congr hPending u).mpr (hDrains.finished u hU)
  case closed =>
    intro b hB hKind hStop
    rw [hActivated]
    rw [hHistory, mem_close] at hB
    rcases hB with ⟨hOld, -⟩ | ⟨c, hC, rfl, hOpen, rfl⟩
    · exact hDrains.closed b hOld hKind hStop
    · exact hEnd c ⟨hC, hOpen⟩ rfl hKind

/- New bindings are open, and their accumulator tensors known. -/
theorem Drains.append
    (hDrains : v.Drains table)
    (hHistory : v'.history = v.history ++ bs)
    (hTensors : v'.tensors = v.tensors)
    (hDone : ∀ t ∈ activated v.done, t ∈ activated v'.done)
    (hFinished : ∀ t ∈ activated v'.done, v'.Unread t)
    (hNew :
      ∀ b ∈ bs, b.releasedAt = none ∧
        (b.kind = .accumulator →
          ∃ tensor, table.Holds b.tensor .accumulator tensor)) :
    v'.Drains table := by
  constructor
  case grown =>
    rw [hTensors]
    exact hDrains.grown
  case held =>
    intro b hB
    rw [hHistory, List.mem_append] at hB
    rcases hB with hOld | hLast
    · exact hDrains.held b hOld
    · exact (hNew b hLast).2
  case finished => exact hFinished
  case closed =>
    intro b hB hKind hStop
    rw [hHistory, List.mem_append] at hB
    rcases hB with hOld | hLast
    · exact hDone _ (hDrains.closed b hOld hKind hStop)
    · rw [(hNew b hLast).1] at hStop
      cases hStop

/- An activation commits after all that reads its tensor. -/
theorem Drains.finished_commit
    (hForm : WellFormed n table program)
    (hQueued : v.Queued program)
    (hDrains : v.Drains table)
    (hCommit : v.CanCommit i op bs)
    (hActivated : t ∈ activated (v.done ++ [op])) :
    (v.committed i op bs).Unread t := by
  intro p hP hReads
  rcases (mem_eraseP_place hQueued.sorted).mp hP with ⟨hWaits, hNe⟩
  rcases mem_activated_push.mp hActivated with hOld | hActivates
  · exact hDrains.finished t hOld p hWaits hReads
  · have hListed := hQueued.listed i op hCommit.pending
    have hListed' := hQueued.listed p.1 p.2 hWaits
    have hProgram : t ∈ activated program :=
      List.mem_filterMap.mpr ⟨op, List.mem_of_getElem? hListed, hActivates⟩
    rcases hForm.holds_activated hProgram with ⟨tensor, hHolds⟩
    have hRuns := (hForm p.1 p.2 hListed').typed.compute_of_reads hHolds
      hReads
    have hArray : op.resource = .compute := by
      cases op with
      | activate => rfl
      | _ => cases hActivates
    have hBefore := hForm.le_of_activates hListed hActivates hListed' hReads
    have hAfter := hCommit.oldest hArray p hWaits hRuns
    exact hNe (Nat.le_antisymm hBefore hAfter)

/- Only tensors of the scratchpad leave for want of room. -/
theorem Drains.leave
    (hSettled : v.Settled)
    (hDrains : v.Drains table)
    (hLeaves : v.Leaves t v') :
    v'.Drains table := by
  have hDeparts := hLeaves.departs hSettled
  have hMoves := (Step.leave hLeaves).moves hDeparts.pending
  refine hDrains.close hDeparts.history hDeparts.pending hDeparts.tensors
    hMoves.1 ?_
  have hPad :
      ∃ b, v.Present b ∧ b.tensor = t ∧ b.kind = .scratchpad := by
    cases hLeaves with
    | copied hPresent hTensor hKind =>
        exact ⟨_, hPresent, hTensor, hKind⟩
    | stored hPresent hTensor hKind =>
        exact ⟨_, hPresent, hTensor, hKind⟩
  rcases hPad with ⟨b, hB, hTensor, hKind⟩
  intro c hC hSame hOther
  cases hSettled.single b c hB hC (hTensor.trans hSame.symm)
  cases hKind.symm.trans hOther

/- What the program writes is in the table from the start. -/
theorem Drains.commit
    (hForm : WellFormed n table program)
    (hQueued : v.Queued program)
    (hDrains : v.Drains table)
    (hCommit : v.CanCommit i op bs) :
    (v.committed i op bs).Drains table := by
  refine hDrains.append rfl rfl ?_ ?_ ?_
  · exact fun _ hU => mem_activated_push.mpr (.inl hU)
  · exact fun _ hU => hDrains.finished_commit hForm hQueued hCommit hU
  · intro b hB
    rcases places_cases hCommit.writes with
      ⟨-, rfl⟩ | ⟨t, c, hWrites, rfl, hPlaces⟩
    · cases hB
    · cases List.mem_singleton.mp hB
      cases hPlaces.tensor_eq
      refine ⟨hPlaces.opened, ?_⟩
      intro hKind
      rcases hPlaces.suits with ⟨grown, hEntry, hSame, -⟩
      have hOp := List.mem_of_getElem? (hQueued.listed i op hCommit.pending)
      rcases hDrains.original hForm
          (List.mem_filterMap.mpr ⟨op, hOp, hWrites⟩) hEntry with
        ⟨tensor, hTensor, hGrows⟩
      exact ⟨tensor, hTensor,
        (hGrows.kind_eq.symm.trans hSame.symm).trans hKind⟩

/- An accumulator tensor that is not read any more is activated. -/
theorem Drains.activated_of_unread
    {b : Binding}
    (hDrained :
      ∀ t tensor, table.Holds t .accumulator tensor →
        t ∈ activated program)
    (hQueued : v.Queued program)
    (hDrains : v.Drains table)
    (hMem : b ∈ v.history)
    (hKind : b.kind = .accumulator)
    (hUnread : v.Unread b.tensor) :
    b.tensor ∈ activated v.done := by
  rcases hDrains.held b hMem hKind with ⟨tensor, hHolds⟩
  rcases List.mem_filterMap.mp (hDrained b.tensor tensor hHolds) with
    ⟨op, hOp, hActivates⟩
  rcases List.mem_iff_getElem?.mp hOp with ⟨i, hGet⟩
  rcases hQueued.committed i op hGet with hWaits | hDid
  · have hReads : b.tensor ∈ op.reads := by
      cases op with
      | activate =>
          cases hActivates
          exact List.mem_singleton.mpr rfl
      | _ => cases hActivates
    exact absurd hReads (hUnread (i, op) hWaits)
  · exact List.mem_filterMap.mpr ⟨op, hDid, hActivates⟩

/-
  Every step keeps the accumulator tensors on the chip until they
  are activated.
-/
theorem Drains.step
    (hForm : WellFormed n table program)
    (hDrained :
      ∀ t tensor, table.Holds t .accumulator tensor →
        t ∈ activated program)
    (hLegal : v.Legal program)
    (hDrains : v.Drains table)
    (hStep : v.Step v') :
    v'.Drains table := by
  cases hStep with
  | leave hLeaves => exact hDrains.leave hLegal.toSettled hLeaves
  | @reload t b _ hPlaces hKind =>
      have hSame : activated (v.done ++ [.reload t]) = activated v.done := by
        rw [activated, List.filterMap_append]
        exact List.append_nil _
      refine hDrains.append rfl rfl ?_ ?_ ?_
      · exact fun _ hU => hSame.symm ▸ hU
      · exact fun u hU => hDrains.finished u (hSame ▸ hU)
      · intro c hC
        rw [List.mem_singleton.mp hC]
        refine ⟨hPlaces.opened, ?_⟩
        intro hOther
        cases hKind.symm.trans hOther
  | commit hCommit => exact hDrains.commit hForm hLegal.toQueued hCommit
  | drop _ hUnread =>
      refine hDrains.close rfl rfl (.refl _) rfl ?_
      rintro b hB rfl hKind
      exact hDrains.activated_of_unread hDrained hLegal.toQueued hB.1 hKind
        hUnread

theorem drains_start
    (bench : Workbench)
    (program : List Operation) :
    (start bench program).Drains bench.tensors where
  grown := .refl _
  held := by simp [start]
  finished := by simp [start, activated]
  closed := by simp [start]

------------------------------------------------------------
-- Stacked Tensors
------------------------------------------------------------

/-
  On the array, the program is committed in its order, and what
  is committed stacks the accumulator tensors.
-/
structure Stacked
    (table : TensorTable)
    (capacity : Nat)
    (program : List Operation)
    (v : View) : Prop where
  ordered :
    computed v.done ++ computed (v.pending.map Prod.snd) =
      computed program
  stack :
    Stacks table capacity (computed v.done).reverse
      (accumulated v.history).reverse

/- The tensors that are not activated take up what is not free. -/
theorem Spares.complements
    {l : FreeList}
    (hSpares : v.Spares .accumulator capacity l)
    (hDrains : v.Drains table)
    (hAwaited : v.Awaited) :
    l.Complements capacity
      (live (computed v.done).reverse (accumulated v.history).reverse) := by
  have hActivated :
      ∀ u, u ∈ activated (computed v.done).reverse ↔
        u ∈ activated v.done := by
    intro u
    rw [← activated_computed v.done]
    unfold activated
    rw [List.filterMap_reverse, List.mem_reverse]
  refine ⟨hSpares.sound, hSpares.capacity_eq, ?_⟩
  intro a
  rw [hSpares.free_iff]
  apply and_congr_right
  intro _
  constructor
  · rintro hApart ⟨r, hR, hHas⟩
    rcases List.mem_map.mp hR with ⟨s, hS, rfl⟩
    rcases List.mem_filter.mp hS with ⟨hPlaced, hOther⟩
    rcases mem_accumulated.mp (List.mem_reverse.mp hPlaced) with
      ⟨b, hB, hKind, rfl⟩
    have hOpen := (hDrains.opened_iff hAwaited hB hKind).mpr
      (fun hIn => of_decide_eq_true hOther ((hActivated _).mpr hIn))
    exact hApart b ⟨hB, hOpen⟩ hKind hHas
  · intro hFree b hB hKind hHas
    apply hFree
    refine ⟨b.region, List.mem_map.mpr ⟨b.slot, ?_, rfl⟩, hHas⟩
    refine List.mem_filter.mpr ⟨?_, decide_eq_true ?_⟩
    · exact List.mem_reverse.mpr
        (mem_accumulated.mpr ⟨b, hB.1, hKind, rfl⟩)
    · intro hIn
      exact (hDrains.opened_iff hAwaited hB.1 hKind).mp hB.2
        ((hActivated _).mp hIn)

/- An operation on the array stacks what it writes. -/
theorem Stacked.stack_commit
    {task : Task}
    (hForm : WellFormed n table program)
    (hQueued : v.Queued program)
    (hDrains : v.Drains table)
    (hStacked : v.Stacked table (task.capacity .accumulator) program)
    (hCommit : v.CanCommit i op bs)
    (hFits : ∀ b ∈ bs, task.Fits v b) :
    Stacks table (task.capacity .accumulator)
      (computed (v.done ++ [op])).reverse
      (accumulated (v.history ++ bs)).reverse := by
  have hOp := List.mem_of_getElem? (hQueued.listed i op hCommit.pending)
  have hPass :
      (∀ t ∈ op.writes, ∀ tensor, ¬ table.Holds t .accumulator tensor) →
      Stacks table (task.capacity .accumulator)
        (computed (v.done ++ [op])).reverse
        (accumulated v.history).reverse := by
    intro hOther
    rw [computed_append]
    by_cases hArray : op.resource = .compute
    · rw [computed_singleton hArray, List.reverse_concat]
      exact .pass hStacked.stack hOther
    · rw [computed_singleton_other hArray, List.append_nil]
      exact hStacked.stack
  rcases places_cases hCommit.writes with
    ⟨hNone, rfl⟩ | ⟨t, b, hWrites, rfl, hPlaces⟩
  · rw [List.append_nil]
    apply hPass
    rw [hNone]
    intro t hT
    cases hT
  · cases hPlaces.tensor_eq
    rcases hFits b (List.mem_singleton.mpr rfl) with
      ⟨grown, l, hEntry, hSpares, hFit⟩
    rcases hPlaces.suits with ⟨grown', hEntry', hSame, hSize⟩
    cases hEntry.symm.trans hEntry'
    rcases hDrains.original hForm
        (List.mem_filterMap.mpr ⟨op, hOp, hWrites⟩) hEntry with
      ⟨tensor, hTensor, hGrows⟩
    rw [hGrows.kind_eq] at hSame
    rw [hGrows.layout_eq] at hSize hFit
    cases hKind : b.kind with
    | scratchpad =>
        rw [accumulated_append, accumulated_scratchpad hKind,
          List.append_nil]
        apply hPass
        intro u hU other hHolds
        cases hWrites.symm.trans hU
        cases hTensor.symm.trans hHolds.1
        cases (hKind.symm.trans hSame).trans hHolds.2
    | accumulator =>
        have hHolds : table.Holds b.tensor .accumulator tensor :=
          ⟨hTensor, hSame.symm.trans hKind⟩
        have hTyped := hForm.typed hOp
        have hArray := hTyped.compute_of_target hHolds
          (hTyped.target_of_writes hWrites)
        have hSlot :
            accumulated [b] =
              [(b.tensor,
                { start := b.address, length := tensor.layout.depth })] := by
          simp [accumulated, hKind, Binding.slot, Binding.region, hSize]
        rw [hKind] at hSpares
        rw [computed_append, computed_singleton hArray, accumulated_append,
          hSlot, List.reverse_concat, List.reverse_concat]
        exact .place hStacked.stack hWrites hHolds
          (hSpares.complements hDrains hCommit.awaited) hFit

/- Every step stacks the tensors as the program does. -/
theorem Stacked.step
    {task : Task}
    {j j' : Journal}
    (hForm : WellFormed n table program)
    (hQueued : j.view.Queued program)
    (hDrains : j.view.Drains table)
    (hStacked : j.view.Stacked table (task.capacity .accumulator) program)
    (hStep : j.Step task j') :
    j'.view.Stacked table (task.capacity .accumulator) program := by
  have hMoved :
      ∀ v', j.view.Step v' → v'.pending = j.view.pending →
        v'.Stacked table (task.capacity .accumulator) program := by
    intro v' hView hPending
    rcases hView.moves hPending with ⟨hDone, hPlaced⟩
    constructor
    · rw [hDone, hPending]
      exact hStacked.ordered
    · rw [hDone, hPlaced]
      exact hStacked.stack
  cases hStep with
  | silent hView hPending => exact hMoved _ hView hPending
  | insert hView hPending => exact hMoved _ hView hPending
  | commit hCommit _ _ _ hFits =>
      constructor
      · rw [← hStacked.ordered, hCommit.computed_pending hQueued,
          ← List.append_assoc]
        exact congrArg (· ++ _) (computed_append _ _)
      · exact hStacked.stack_commit hForm hQueued hDrains hCommit hFits

theorem stacked_start
    (bench : Workbench)
    (capacity : Nat)
    (program : List Operation) :
    (start bench program).Stacked bench.tensors capacity program where
  ordered := congrArg computed (map_snd_located program)
  stack := .nil

end View

------------------------------------------------------------
-- Tensors of the Host
------------------------------------------------------------

/- The host does not see where a tensor waits. -/
theorem TensorTable.host_modify_spilled
    (table : TensorTable)
    (t : TensorId)
    (location : Option DramLocation) :
    (table.modify t (·.setSlot .spilled location)).host = table.host := by
  have hSame :
      ∀ f : Tensor → Option HostTensor,
        (∀ tensor, f (tensor.setSlot .spilled location) = f tensor) →
        (table.modify t (·.setSlot .spilled location)).toList.filterMap f =
          table.toList.filterMap f := by
    intro f hF
    have hMap :
        (table.modify t (·.setSlot .spilled location)).toList.map f =
          table.toList.map f := by
      apply List.ext_getElem?
      intro i
      simp only [toList, modify, Array.toList_modify, List.getElem?_map,
        List.getElem?_modify]
      split
      · cases table.tensors.toList[i]? <;> simp [hF]
      · simp
    have hId := congrArg (List.filterMap id) hMap
    rwa [List.filterMap_map, List.filterMap_map] at hId
  unfold host
  rw [hSame Tensor.source? (fun _ => rfl),
    hSame Tensor.collected? (fun _ => rfl)]

/- A step leaves what the host provides and collects. -/
theorem View.Step.host_eq
    {v v' : View}
    (hStep : v.Step v') :
    v'.tensors.host = v.tensors.host := by
  cases hStep with
  | leave hLeaves =>
      cases hLeaves with
      | copied => rfl
      | stored => exact TensorTable.host_modify_spilled _ _ _
  | reload => rfl
  | commit => rfl
  | drop => rfl

namespace Workbench

variable {task : Task} {bench : Workbench} {run : Run}

/- The placements in the accumulator memory are those of the program. -/
theorem Schedules.stacked
    {n : Nat}
    (hSchedules : bench.Schedules task run)
    (hForm : WellFormed n bench.tensors task.program)
    (hDrained :
      ∀ t tensor, bench.tensors.Holds t .accumulator tensor →
        t ∈ activated task.program) :
    Stacks bench.tensors (task.capacity .accumulator)
      (computed task.program).reverse
      (accumulated run.bench.memory.history).reverse := by
  have hInvariant :
      run.view.Drains bench.tensors ∧
        run.view.Stacked bench.tensors (task.capacity .accumulator)
          task.program := by
    refine hSchedules.invariant
      (P := fun j => j.view.Drains bench.tensors ∧
        j.view.Stacked bench.tensors (task.capacity .accumulator)
          task.program) ?_ ?_
    · exact ⟨View.drains_start _ _, View.stacked_start _ _ _⟩
    · rintro j j' hLegal ⟨hDrains, hStacked⟩ hStep
      exact ⟨hDrains.step hForm hDrained hLegal hStep.view,
        hStacked.step hForm hLegal.toQueued hDrains hStep⟩
  rcases hInvariant with ⟨-, hStacked⟩
  have hOrdered := hStacked.ordered
  rw [hSchedules.pending, List.map_nil] at hOrdered
  rw [← hOrdered, ← computed_append, List.append_nil]
  exact hStacked.stack

theorem Schedules.host_eq
    (hSchedules : bench.Schedules task run) :
    run.bench.tensors.host = bench.tensors.host := by
  have hSteps := hSchedules.steps_view
  change run.view.tensors.host = (View.start bench task.program).tensors.host
  generalize run.view = final at hSteps ⊢
  induction hSteps with
  | refl => rfl
  | tail _ hStep ih => exact hStep.host_eq.trans ih

end Workbench

end Systolic
