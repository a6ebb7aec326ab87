import Mathlib.Data.List.Perm.Subperm
import Systolic.Output.Compiled
import Systolic.Proofs.Graph.Denotation
import Systolic.Proofs.Schedule.Program

/-
  This file proves that a schedule is a bounded reordering of its
  program: every operation is committed once and after those that
  define what it reads, operations of the array stay in order,
  and few operations are overtaken.

  Key definitions include:
    * `places`
    * `CommittedOp.Follows`
    * `Journal.Ordered`

  Key theorems include:
    * `Journal.Ordered.step`
    * `Workbench.schedule_reorders`
-/

namespace Systolic

------------------------------------------------------------
-- Places in the Program
------------------------------------------------------------

/- The places of committed operations in the program. -/
def places (ops : List CommittedOp) : List Nat :=
  ops.filterMap (·.origin)

/- An operation of the program that writes a tensor is committed. -/
def Wrote
    (ops : List CommittedOp)
    (t : TensorId) : Prop :=
  ∃ d ∈ ops, d.origin.isSome ∧ d.operation.writes = some t

/-
  A committed operation and those before it. One of the program
  is the one at its place, and fewer than `window` operations
  before its place are not committed yet. On the array, those
  before it have smaller places. An operation that the scheduler
  adds moves a tensor off the chip or back. Whatever is read or
  moved is written before.
-/
structure CommittedOp.Follows
    (program : List Operation)
    (window : Nat)
    (before : List CommittedOp)
    (c : CommittedOp) : Prop where
  listed : ∀ i ∈ c.origin, program[i]? = some c.operation
  added :
    c.origin = none →
      ∃ t, (c.operation = .spill t ∨ c.operation = .reload t) ∧
        Wrote before t
  ordered :
    ∀ i ∈ c.origin, c.operation.resource = .compute →
      ∀ d ∈ before, d.operation.resource = .compute →
        ∀ k ∈ d.origin, k < i
  defined : ∀ t ∈ c.operation.reads, Wrote before t
  near :
    ∀ i ∈ c.origin,
      ((List.range i).filter (· ∉ places before)).length < window

theorem places_push
    (ops : List CommittedOp)
    (c : CommittedOp) :
    places (ops ++ [c]) = places ops ++ c.origin.toList := by
  unfold places
  rw [List.filterMap_append]
  cases hOrigin : c.origin <;> simp [hOrigin]

theorem Wrote.push
    {ops : List CommittedOp}
    {t : TensorId}
    (hWrote : Wrote ops t)
    (c : CommittedOp) :
    Wrote (ops ++ [c]) t := by
  rcases hWrote with ⟨d, hMem, hRest⟩
  exact ⟨d, List.mem_append_left _ hMem, hRest⟩

/- Without the operation of one place, all other places stay. -/
theorem perm_eraseP_place
    {pending : List (Nat × Operation)}
    {i : Nat}
    {op : Operation}
    (hMem : (i, op) ∈ pending) :
    (pending.map Prod.fst).Perm
      (i :: (pending.eraseP (fun p => p.1 = i)).map Prod.fst) := by
  rcases List.exists_of_eraseP (p := fun p => p.1 = i) hMem (by simp) with
    ⟨p, front, back, -, hPlace, hSplit, hErase⟩
  rw [hErase, hSplit, List.map_append, List.map_append, List.map_cons,
    of_decide_eq_true hPlace]
  exact List.perm_middle

/-
  The pending operations are in order, so few of them come before
  one of the first.
-/
theorem length_filter_lt_of_mem_take
    {pending : List (Nat × Operation)}
    {window i : Nat}
    {op : Operation}
    {p : Nat → Bool}
    (hSorted : pending.Pairwise (fun p q => p.1 < q.1))
    (hWindow : (i, op) ∈ pending.take window)
    (hPending : ∀ k < i, p k → k ∈ pending.map Prod.fst) :
    ((List.range i).filter p).length < window := by
  rcases List.mem_take_iff_getElem.mp hWindow with ⟨n, hN, hGet⟩
  have hInside : n < pending.length := by omega
  have hSubset :
      (List.range i).filter p ⊆ (pending.take n).map Prod.fst := by
    intro k hK
    rcases List.mem_filter.mp hK with ⟨hBelow, hLeft⟩
    have hBelow := List.mem_range.mp hBelow
    rcases List.mem_map.mp (hPending k hBelow hLeft) with ⟨q, hQ, rfl⟩
    rcases List.mem_iff_getElem.mp hQ with ⟨h, hH, rfl⟩
    have hBefore : h < n := by
      by_contra hAfter
      rcases Nat.lt_or_eq_of_le (Nat.le_of_not_lt hAfter) with hLt | rfl
      · have hLater :=
          List.pairwise_iff_getElem.mp hSorted n h hInside hH hLt
        rw [hGet] at hLater
        omega
      · rw [hGet] at hBelow
        omega
    exact List.mem_map_of_mem
      (List.mem_take_iff_getElem.mpr ⟨h, by omega, rfl⟩)
  have hNodup : ((List.range i).filter p).Nodup :=
    List.nodup_range.filter p
  have hLength := (hNodup.subperm hSubset).length_le
  rw [List.length_map, List.length_take] at hLength
  omega

------------------------------------------------------------
-- Journals
------------------------------------------------------------

namespace Journal

/-
  Every place of the program is that of a committed or of a
  pending operation, what is on the chip was written, and every
  committed operation follows those before it.
-/
structure Ordered
    (task : Task)
    (j : Journal) : Prop where
  perm :
    (places j.ops ++ j.view.pending.map Prod.fst).Perm
      (List.range task.program.length)
  inOrder :
    task.window = 1 →
      places j.ops ++ j.view.pending.map Prod.fst =
        List.range task.program.length
  wrote : ∀ t, j.view.OnChip t → Wrote j.ops t
  follows :
    ∀ (k : Nat) (c : CommittedOp), j.ops[k]? = some c →
      c.Follows task.program task.window (j.ops.take k)

namespace Ordered

variable {task : Task} {j j' : Journal} {t : TensorId}
variable {i : Nat} {op : Operation}

theorem mem_or
    (hOrdered : j.Ordered task)
    (hPlace : i < task.program.length) :
    i ∈ places j.ops ∨ i ∈ j.view.pending.map Prod.fst :=
  List.mem_append.mp
    (hOrdered.perm.mem_iff.mpr (List.mem_range.mpr hPlace))

theorem not_mem_located
    (hOrdered : j.Ordered task)
    (hMem : (i, op) ∈ j.view.pending) :
    i ∉ places j.ops := by
  intro hPlace
  have hNodup := hOrdered.perm.nodup_iff.mpr List.nodup_range
  exact List.disjoint_of_nodup_append hNodup hPlace
    (List.mem_map_of_mem hMem)

/- An operation that is not pending is committed. -/
theorem mem_ops
    (hOrdered : j.Ordered task)
    (hGet : task.program[i]? = some op)
    (hGone : i ∉ j.view.pending.map Prod.fst) :
    ∃ d ∈ j.ops, d.origin = some i ∧ d.operation = op := by
  have hPlace := (hOrdered.mem_or (List.getElem?_eq_some_iff.mp hGet).1)
    |>.resolve_right hGone
  rcases List.mem_filterMap.mp hPlace with ⟨d, hMem, hOrigin⟩
  rcases List.mem_iff_getElem?.mp hMem with ⟨k, hK⟩
  have hListed := (hOrdered.follows k d hK).listed i hOrigin
  exact ⟨d, hMem, hOrigin, Option.some.inj (hListed.symm.trans hGet)⟩

/- What a pending operation reads was written once it is defined. -/
theorem wrote_of_reads
    (hSingle : SingleAssignment task.program)
    (hQueued : j.view.Queued task.program)
    (hOrdered : j.Ordered task)
    (hMem : (i, op) ∈ j.view.pending)
    (hReads : t ∈ op.reads)
    (hDefined : j.view.Defined t) :
    Wrote j.ops t := by
  rcases hSingle.exists_writer (hQueued.listed i op hMem) hReads with
    ⟨k, writer, -, hGet, hWrites⟩
  have hGone : k ∉ j.view.pending.map Prod.fst := by
    intro hWaits
    rcases List.mem_map.mp hWaits with ⟨p, hP, rfl⟩
    have hSame := (hQueued.listed p.1 p.2 hP).symm.trans hGet
    rw [← Option.some.inj hSame] at hWrites
    exact hDefined p hP hWrites
  rcases hOrdered.mem_ops hGet hGone with ⟨d, hD, hOrigin, rfl⟩
  exact ⟨d, hD, by rw [hOrigin]; rfl, hWrites⟩

theorem silent
    {v : View}
    (hOrdered : j.Ordered task)
    (hStep : j.view.Step v)
    (hPending : v.pending = j.view.pending)
    (hDone : v.done = j.view.done) :
    Ordered task { j with view := v } := by
  rcases hStep.silent_cases hDone with ⟨t, time, spilled, hHistory⟩
  constructor
  case perm =>
    rw [hPending]
    exact hOrdered.perm
  case inOrder =>
    rw [hPending]
    exact hOrdered.inOrder
  case wrote =>
    intro u hU
    exact hOrdered.wrote u ((View.onChip_close hHistory u).mp hU).1
  case follows => exact hOrdered.follows

/- An operation that the scheduler adds moves a tensor. -/
theorem insert
    {v : View}
    {c : CommittedOp}
    {e : Encoded}
    (hSingle : SingleAssignment task.program)
    (hLegal : j.view.Legal task.program)
    (hOrdered : j.Ordered task)
    (hStep : j.view.Step v)
    (hPending : v.pending = j.view.pending)
    (hDone : v.done = j.view.done ++ [c.operation])
    (hOrigin : c.origin = none) :
    (j.entered v c e).Ordered task := by
  have hPlaces : places (j.ops ++ [c]) = places j.ops := by
    rw [places_push, hOrigin]
    exact List.append_nil _
  -- The moved tensor was written, and no other one is on the chip.
  have hMoves :
      ∃ t, (c.operation = .spill t ∨ c.operation = .reload t) ∧
        Wrote j.ops t ∧
        ∀ u, v.OnChip u → u = t ∨ j.view.OnChip u := by
    rcases hStep.added_cases hPending hDone with
      ⟨t, hOp, hOn, hLeaves⟩ |
        ⟨t, b, hOp, hPlaces, hDefined, hRead, hHistory⟩
    · refine ⟨t, .inl hOp, hOrdered.wrote t hOn, ?_⟩
      intro u hU
      have hDeparts := hLeaves.departs hLegal.toSettled
      exact .inr ((View.onChip_close hDeparts.history u).mp hU).1
    · refine ⟨t, .inr hOp, ?_, ?_⟩
      · unfold View.Unread at hRead
        push Not at hRead
        rcases hRead with ⟨p, hP, hReads⟩
        exact hOrdered.wrote_of_reads hSingle hLegal.toQueued hP hReads
          hDefined
      · intro u hU
        rcases hU with ⟨d, hD, rfl⟩
        rcases (View.present_place hHistory hPlaces.opened).mp hD with
          hOld | rfl
        · exact .inr ⟨d, hOld, rfl⟩
        · exact .inl hPlaces.tensor_eq
  rcases hMoves with ⟨t, hOp, hWrote, hOnly⟩
  constructor
  case perm =>
    simp only [entered, hPlaces, hPending]
    exact hOrdered.perm
  case inOrder =>
    simp only [entered, hPlaces, hPending]
    exact hOrdered.inOrder
  case wrote =>
    intro u hU
    rcases hOnly u hU with rfl | hOld
    · exact hWrote.push c
    · exact (hOrdered.wrote u hOld).push c
  case follows =>
    refine forall_take_push hOrdered.follows ?_
    constructor
    case added => exact fun _ => ⟨t, hOp, hWrote⟩
    case defined =>
      intro u hU
      rcases hOp with hOp | hOp <;> rw [hOp] at hU
      · rw [List.mem_singleton.mp hU]
        exact hWrote
      · cases hU
    all_goals
      rw [hOrigin]
      rintro i ⟨⟩

/- An operation of the program is taken from the pending ones. -/
theorem commit
    {bs : List Binding}
    {c : CommittedOp}
    {e : Encoded}
    (hLegal : j.view.Legal task.program)
    (hOrdered : j.Ordered task)
    (hCommit : j.view.CanCommit i c.operation bs)
    (hWindow : (i, c.operation) ∈ j.view.pending.take task.window)
    (hOrigin : c.origin = some i) :
    (j.entered (j.view.committed i c.operation bs) c e).Ordered task := by
  have hMem := hCommit.pending
  have hPlaces : places (j.ops ++ [c]) = places j.ops ++ [i] := by
    rw [places_push, hOrigin]
    rfl
  constructor
  case perm =>
    simp only [entered, View.committed, hPlaces, List.append_assoc]
    exact ((perm_eraseP_place hMem).symm.append_left _).trans
      hOrdered.perm
  case inOrder =>
    intro hOne
    rw [← hOrdered.inOrder hOne]
    rw [hOne] at hWindow
    cases hPending : j.view.pending with
    | nil =>
        rw [hPending] at hMem
        cases hMem
    | cons p rest =>
        rw [hPending] at hWindow
        have hFirst : p = (i, c.operation) :=
          (List.mem_singleton.mp hWindow).symm
        simp [entered, View.committed, hPlaces, hPending, hFirst]
  case wrote =>
    intro t hOn
    rcases hOn with ⟨b, ⟨hB, hOpen⟩, rfl⟩
    rcases List.mem_append.mp hB with hOld | hNew
    · exact (hOrdered.wrote _ ⟨b, ⟨hOld, hOpen⟩, rfl⟩).push c
    · refine ⟨c, List.mem_append_right _ (List.mem_singleton.mpr rfl),
        by rw [hOrigin]; rfl, ?_⟩
      rcases View.places_cases hCommit.writes with
        ⟨-, rfl⟩ | ⟨t, d, hT, rfl, hD⟩
      · cases hNew
      · rw [List.mem_singleton.mp hNew, hD.tensor_eq]
        exact hT
  case follows =>
    refine forall_take_push hOrdered.follows ?_
    have hSame : ∀ k ∈ c.origin, k = i := by
      rw [hOrigin]
      rintro k ⟨⟩
      rfl
    constructor
    case listed =>
      intro k hK
      rw [hSame k hK]
      exact hLegal.listed i c.operation hMem
    case added =>
      intro hNone
      cases hNone.symm.trans hOrigin
    case ordered =>
      intro k hK hCompute d hD hArray h hH
      rw [hSame k hK]
      rcases List.mem_iff_getElem?.mp hD with ⟨n, hN⟩
      have hListed := (hOrdered.follows n d hN).listed h hH
      have hCommitted : h ∈ places j.ops :=
        List.mem_filterMap.mpr ⟨d, hD, hH⟩
      -- A later operation of the array would still be pending.
      rcases Nat.lt_trichotomy h i with hLt | rfl | hGt
      · exact hLt
      · exact absurd hCommitted (hOrdered.not_mem_located hMem)
      · have hWaits := hLegal.ordered i c.operation h d.operation hMem
          hCompute hListed hArray hGt
        exact absurd hCommitted (hOrdered.not_mem_located hWaits)
    case defined =>
      intro t hReads
      exact hOrdered.wrote t (hCommit.reads t hReads)
    case near =>
      intro k hK
      rw [hSame k hK]
      refine length_filter_lt_of_mem_take hLegal.sorted hWindow ?_
      intro h hBefore hLeft
      have hInside : i < task.program.length :=
        (List.getElem?_eq_some_iff.mp
          (hLegal.listed i c.operation hMem)).1
      refine (hOrdered.mem_or (by omega)).resolve_left ?_
      simpa using hLeft

/- Every step keeps the order. -/
theorem step
    (hSingle : SingleAssignment task.program)
    (hLegal : j.view.Legal task.program)
    (hOrdered : j.Ordered task)
    (hStep : j.Step task j') :
    j'.Ordered task := by
  cases hStep with
  | silent hStep hPending hDone =>
      exact hOrdered.silent hStep hPending hDone
  | insert hStep hPending hDone hOrigin _ =>
      exact hOrdered.insert hSingle hLegal hStep hPending hDone hOrigin
  | commit hCommit hWindow hOrigin _ =>
      exact hOrdered.commit hLegal hCommit hWindow hOrigin

end Ordered

/- All operations are pending at first, in their order. -/
theorem ordered_start
    (bench : Workbench)
    (task : Task) :
    (start bench task.program).Ordered task := by
  have hPlaces :
      places (start bench task.program).ops ++
          (start bench task.program).view.pending.map Prod.fst =
        List.range task.program.length := by
    rw [start, places, List.filterMap_nil, List.nil_append]
    exact map_fst_located task.program
  constructor
  case perm => rw [hPlaces]
  case inOrder => exact fun _ => hPlaces
  case wrote =>
    rintro t ⟨b, ⟨hMem, -⟩, -⟩
    cases hMem
  case follows => simp [start]

end Journal

------------------------------------------------------------
-- Schedules
------------------------------------------------------------

/-
  A schedule that starts with empty memories is a bounded
  reordering of its program. Every place of the program is
  committed once, each committed operation follows those before
  it, and a lookahead of at most one leaves the program in order.
-/
theorem Workbench.schedule_reorders
    {near far lookahead : Nat}
    {program : List Operation}
    {bench bench' : Workbench}
    {s : Schedule}
    (hEmpty : bench.memory = .empty near far)
    (hSchedule : schedule program lookahead bench = .ok s bench') :
    (places s.ops).Perm (List.range program.length) ∧
    (∀ (k : Nat) (c : CommittedOp), s.ops[k]? = some c →
      c.Follows program (max lookahead 1) (s.ops.take k)) ∧
    (lookahead ≤ 1 → places s.ops = List.range program.length) := by
  rcases schedules_of_ok hEmpty hSchedule with
    ⟨run, hSchedules, rfl, rfl⟩
  have hOrdered :
      run.journal.Ordered (bench.taskOf program lookahead) :=
    hSchedules.invariant (Journal.ordered_start bench _)
      (fun j j' hLegal hBefore hStep =>
        hBefore.step hSchedules.single hLegal hStep)
  have hPlaces :
      places run.schedule.ops =
        places run.journal.ops ++ run.journal.view.pending.map Prod.fst := by
    change places run.journal.ops =
      places run.journal.ops ++ run.view.pending.map Prod.fst
    rw [hSchedules.pending, List.map_nil, List.append_nil]
  refine ⟨?_, hOrdered.follows, ?_⟩
  · rw [hPlaces]
    exact hOrdered.perm
  · intro hFew
    rw [hPlaces]
    exact hOrdered.inOrder (Nat.max_eq_right hFew)

/-
  The schedule of a network that is lowered on its own, with its
  program and with the workbenches before and after it.
-/
structure Scheduled where
  program : List Operation
  before : Workbench
  schedule : Schedule
  after : Workbench

/- Lower a network on a machine and schedule its program. -/
def scheduleNetwork?
    {ν : Type}
    [DecidableEq ν]
    (net : Network ν)
    (outputs : List String)
    (m : Machine)
    (lookahead : Nat) : Option Scheduled := do
  let start ← (Workbench.ofMachine m).toOption
  let (program, before) ← (lowerNetwork net outputs start).toOption
  match Workbench.schedule program lookahead before with
  | .ok schedule after => some { program, before, schedule, after }
  | .error _ _ => none

theorem eq_ok_of_toOption
    {ε α : Type}
    {x : Except ε α}
    {a : α}
    (hSome : x.toOption = some a) :
    x = .ok a := by
  cases x with
  | error e => cases hSome
  | ok b => exact congrArg _ (Option.some.inj hSome)

/- The lowering and the schedule that were found. -/
theorem scheduleNetwork?_eq_some
    {ν : Type}
    [DecidableEq ν]
    {net : Network ν}
    {outputs : List String}
    {m : Machine}
    {lookahead : Nat}
    {x : Scheduled}
    (hScheduled : scheduleNetwork? net outputs m lookahead = some x) :
    (∃ start, Workbench.ofMachine m = .ok start ∧
      lowerNetwork net outputs start = .ok (x.program, x.before)) ∧
    Workbench.schedule x.program lookahead x.before =
      .ok x.schedule x.after := by
  unfold scheduleNetwork? at hScheduled
  rcases Option.bind_eq_some_iff.mp hScheduled with ⟨start, hStart, hLowers⟩
  rcases Option.bind_eq_some_iff.mp hLowers with
    ⟨⟨program, before⟩, hLower, hSchedules⟩
  dsimp only at hSchedules
  split at hSchedules
  case h_2 => cases hSchedules
  case h_1 hOk =>
    cases hSchedules
    exact ⟨⟨start, eq_ok_of_toOption hStart, eq_ok_of_toOption hLower⟩, hOk⟩

/- The second load overtakes the activation of the first input. -/
theorem Workbench.schedule_reorders_rectifiedSum :
    ∃ x : Scheduled,
      x.before.memory = .empty 2 1 ∧
      schedule x.program 2 x.before = .ok x.schedule x.after ∧
      places x.schedule.ops = [0, 1, 3, 2, 4, 5, 6, 7, 8, 9] ∧
      (places x.schedule.ops).Perm (List.range x.program.length) ∧
      ∀ (k : Nat) (c : CommittedOp), x.schedule.ops[k]? = some c →
        c.Follows x.program 2 (x.schedule.ops.take k) := by
  have hFacts :
      (scheduleNetwork? rectifiedSum ["sum"]
        { oneVector with localDepth := 2 } 2).map
        (fun x => (x.before.memory, places x.schedule.ops)) =
      some (.empty 2 1, [0, 1, 3, 2, 4, 5, 6, 7, 8, 9]) := by
    decide +kernel
  rcases Option.map_eq_some_iff.mp hFacts with ⟨x, hScheduled, hSeen⟩
  rcases Prod.mk.inj hSeen with ⟨hEmpty, hPlaces⟩
  have hSchedule := (scheduleNetwork?_eq_some hScheduled).2
  rcases schedule_reorders hEmpty hSchedule with ⟨hPerm, hFollows, -⟩
  exact ⟨x, hEmpty, hSchedule, hPlaces, hPerm, hFollows⟩

end Systolic
