import Mathlib.Order.Bounds.Basic
import Systolic.Output.Summary
import Systolic.Proofs.Arith.Rounding
import Systolic.Proofs.Schedule.Order
import Systolic.Proofs.Schedule.Stable

/-
  This file proves that the cycles of a schedule are consistent.
  Every operation starts as soon as its unit is free and what it
  reads is defined, and takes its estimated cycles. So the
  operations of one unit follow one another, and no unit works
  for longer than the whole schedule takes.

  Key definitions include:
    * `CommittedOp.Latest`
    * `CommittedOp.Timed`
    * `Schedule.Consistent`

  Key theorems include:
    * `Timeline.pairwise_apart`
    * `Run.stable_timed`
    * `Workbench.schedule_consistent`
-/

namespace Systolic

------------------------------------------------------------
-- Times
------------------------------------------------------------

/- The last operation in a list that has a property. -/
def CommittedOp.Latest
    (ops : List CommittedOp)
    (P : CommittedOp → Prop)
    (c : CommittedOp) : Prop :=
  ∃ front back, ops = front ++ c :: back ∧ P c ∧ ∀ d ∈ back, ¬ P d

/-
  The cycles for which an operation waits: those in which the
  last earlier operation of its unit ends, and for each tensor
  that it reads, the last earlier operation that wrote it.
-/
def CommittedOp.Awaits
    (earlier : List CommittedOp)
    (c : CommittedOp) : Set Nat :=
  {cycle | cycle = 0 ∨
    (∃ d, Latest earlier (fun d => d.resource = c.resource) d ∧
      d.endCycle = cycle) ∨
    ∃ t ∈ c.operation.reads, ∃ d,
      Latest earlier (fun d => d.operation.writes = some t) d ∧
        d.endCycle = cycle}

/-
  An operation starts when the last of what it waits for ends,
  and takes its estimated cycles, up to the largest count.
-/
structure CommittedOp.Timed
    (m : Machine)
    (table : TensorTable)
    (earlier : List CommittedOp)
    (c : CommittedOp) : Prop where
  resource : c.resource = c.operation.resource
  start : IsGreatest (c.Awaits earlier) c.startCycle
  stop :
    ∃ cycles, c.operation.cycles m table = .ok cycles ∧
      c.endCycle = min (c.startCycle + cycles) (2 ^ 64 - 1)

/- Operations, newest first, that all have consistent times. -/
def Timeline
    (m : Machine)
    (table : TensorTable) : List CommittedOp → Prop
| [] => True
| c :: older => c.Timed m table older.reverse ∧ Timeline m table older

/- The end of the newest operation that has a property, or zero. -/
def lastEnd
    (P : CommittedOp → Bool)
    (ops : List CommittedOp) : Nat :=
  ((ops.find? P).map (·.endCycle)).getD 0

section Times

variable {m : Machine}
variable {table : TensorTable}
variable {ops older : List CommittedOp}
variable {c d : CommittedOp}

theorem latest_reverse_iff
    {P : CommittedOp → Prop}
    [DecidablePred P] :
    CommittedOp.Latest ops.reverse P c ↔
      ops.find? (fun d => P d) = some c := by
  rw [List.find?_eq_some_iff_append, CommittedOp.Latest]
  constructor
  · rintro ⟨front, back, hSplit, hP, hBack⟩
    refine ⟨by simpa using hP, back.reverse, front.reverse, ?_, ?_⟩
    · rw [← List.reverse_reverse ops, hSplit]
      simp
    · intro d hMem
      simpa using hBack d (List.mem_reverse.mp hMem)
  · rintro ⟨hP, newer, older, rfl, hNewer⟩
    refine ⟨older.reverse, newer.reverse, by simp, by simpa using hP, ?_⟩
    intro d hMem
    simpa using hNewer d (List.mem_reverse.mp hMem)

theorem lastEnd_cons
    (P : CommittedOp → Bool) :
    lastEnd P (c :: older) =
      if P c then c.endCycle else lastEnd P older := by
  cases hP : P c <;> simp [lastEnd, hP]

theorem lastEnd_eq_or
    (ops : List CommittedOp)
    (P : CommittedOp → Prop)
    [DecidablePred P] :
    lastEnd (fun d => P d) ops = 0 ∨
      ∃ d, CommittedOp.Latest ops.reverse P d ∧
        d.endCycle = lastEnd (fun d => P d) ops := by
  unfold lastEnd
  cases hFind : ops.find? (fun d => P d) with
  | none => exact .inl rfl
  | some d => exact .inr ⟨d, latest_reverse_iff.mpr hFind, rfl⟩

theorem lastEnd_of_latest
    {P : CommittedOp → Prop}
    [DecidablePred P]
    (hLatest : CommittedOp.Latest ops.reverse P d) :
    lastEnd (fun d => P d) ops = d.endCycle := by
  unfold lastEnd
  rw [latest_reverse_iff.mp hLatest]
  rfl

/- The greatest of a number and those of a list. -/
theorem isGreatest_foldl_max
    (l : List Nat)
    (a : Nat) :
    IsGreatest {n | n = a ∨ n ∈ l} (l.foldl max a) := by
  induction l generalizing a with
  | nil => simp [IsGreatest, upperBounds]
  | cons b l ih =>
      rcases ih (max a b) with ⟨hMem, hBound⟩
      rw [List.foldl_cons]
      constructor
      · rcases hMem with hMax | hIn
        · rw [hMax]
          rcases Nat.le_total a b with hLe | hLe
          · rw [Nat.max_eq_right hLe]
            exact .inr List.mem_cons_self
          · rw [Nat.max_eq_left hLe]
            exact .inl rfl
        · exact .inr (List.mem_cons_of_mem _ hIn)
      · have hMax : max a b ≤ l.foldl max (max a b) := hBound (.inl rfl)
        rintro n (rfl | hIn)
        · exact Nat.le_trans (Nat.le_max_left _ _) hMax
        · rcases List.mem_cons.mp hIn with rfl | hRest
          · exact Nat.le_trans (Nat.le_max_right _ _) hMax
          · exact hBound (.inr hRest)

/- The first cycle of an operation is the greatest that it awaits. -/
theorem Run.isGreatest_readyAt
    {run : Run}
    (hResource : c.resource = c.operation.resource) :
    IsGreatest (c.Awaits run.committed.reverse)
      (run.readyAt c.operation) := by
  have hFree :
      run.freeAt.get c.operation.resource =
        lastEnd (fun d => d.resource = c.resource) run.committed := by
    rw [run.agrees.freeAt, hResource, lastEnd]
  have hDefined :
      ∀ t cycle, run.definedAt t = some cycle ↔
        ∃ d, CommittedOp.Latest run.committed.reverse
          (fun d => d.operation.writes = some t) d ∧ d.endCycle = cycle := by
    intro t cycle
    rw [run.agrees.definedAt, Option.map_eq_some_iff]
    simp only [latest_reverse_iff]
  have hGreatest :=
    isGreatest_foldl_max (c.operation.reads.filterMap run.definedAt)
      (run.freeAt.get c.operation.resource)
  rw [hFree] at hGreatest
  rw [Ledger.readyAt, hFree]
  rcases hGreatest with ⟨hMem, hBound⟩
  constructor
  · rcases hMem with hUnit | hRead
    · rw [hUnit]
      rcases lastEnd_eq_or run.committed
        (fun d => d.resource = c.resource) with hZero | hLast
      · exact .inl hZero
      · exact .inr (.inl hLast)
    · rcases List.mem_filterMap.mp hRead with ⟨t, hT, hEq⟩
      exact .inr (.inr ⟨t, hT, (hDefined t _).mp hEq⟩)
  · rintro cycle (rfl | ⟨d, hLatest, rfl⟩ | ⟨t, hT, d, hLatest, rfl⟩)
    · exact Nat.zero_le _
    · rw [← lastEnd_of_latest hLatest]
      exact hBound (.inl rfl)
    · refine hBound (.inr (List.mem_filterMap.mpr ⟨t, hT, ?_⟩))
      exact (hDefined t _).mpr ⟨d, hLatest, rfl⟩

/- Every operation ends in a cycle that is a count. -/
theorem CommittedOp.Timed.endCycle_le
    {earlier : List CommittedOp}
    (hTimed : c.Timed m table earlier) :
    c.endCycle ≤ 2 ^ 64 - 1 := by
  rcases hTimed.stop with ⟨cycles, -, hStop⟩
  rw [hStop]
  exact Nat.min_le_right _ _

namespace Timeline

theorem timed_of_split
    {front back : List CommittedOp}
    (hLine : Timeline m table ops)
    (hSplit : ops.reverse = front ++ c :: back) :
    c.Timed m table front := by
  induction ops generalizing back with
  | nil => simp at hSplit
  | cons newest older ih =>
      rcases hLine with ⟨hNewest, hOlder⟩
      rw [List.reverse_cons] at hSplit
      rcases List.eq_nil_or_concat back with rfl | ⟨rest, last, rfl⟩
      · rcases List.append_inj' hSplit rfl with ⟨rfl, hOp⟩
        cases hOp
        exact hNewest
      · rw [List.concat_eq_append, ← List.cons_append,
          ← List.append_assoc] at hSplit
        exact ih hOlder (List.append_inj' hSplit rfl).1

/- An operation starts no earlier than its unit is free. -/
theorem lastEnd_le_startCycle
    (hTimed : c.Timed m table older.reverse) :
    lastEnd (fun d => d.resource = c.resource) older ≤ c.startCycle := by
  rcases lastEnd_eq_or older
    (fun d => d.resource = c.resource) with hZero | hLast
  · rw [hZero]
    exact Nat.zero_le _
  · exact hTimed.start.2 (.inr (.inl hLast))

/- What an operation waits for are ends, so its start is a count. -/
theorem startCycle_le_endCycle
    (hLine : Timeline m table (c :: older)) :
    c.startCycle ≤ c.endCycle := by
  have hCount : c.startCycle ≤ 2 ^ 64 - 1 := by
    rcases hLine.1.start.1 with
      hZero | ⟨d, ⟨front, back, hSplit, -⟩, hEnd⟩ |
        ⟨t, -, d, ⟨front, back, hSplit, -⟩, hEnd⟩
    · rw [hZero]
      exact Nat.zero_le _
    · rw [← hEnd]
      exact (hLine.2.timed_of_split hSplit).endCycle_le
    · rw [← hEnd]
      exact (hLine.2.timed_of_split hSplit).endCycle_le
  rcases hLine.1.stop with ⟨cycles, -, hStop⟩
  rw [hStop]
  exact Nat.le_min.mpr ⟨Nat.le_add_right _ _, hCount⟩

/- No operation of a unit ends after the newest of them. -/
theorem endCycle_le_lastEnd
    {r : Resource}
    (hLine : Timeline m table ops)
    (hMem : c ∈ ops)
    (hUnit : c.resource = r) :
    c.endCycle ≤ lastEnd (fun d => d.resource = r) ops := by
  induction ops with
  | nil => cases hMem
  | cons newest older ih =>
      rw [lastEnd_cons]
      by_cases hNewest : newest.resource = r
      · rw [if_pos (decide_eq_true hNewest)]
        rcases List.mem_cons.mp hMem with rfl | hOlder
        · exact Nat.le_refl _
        · calc
            c.endCycle ≤ lastEnd (fun d => d.resource = r) older :=
              ih hLine.2 hOlder
            _ ≤ newest.startCycle := by
              rw [← hNewest]
              exact lastEnd_le_startCycle hLine.1
            _ ≤ newest.endCycle := hLine.startCycle_le_endCycle
      · rw [if_neg (by simpa using hNewest)]
        rcases List.mem_cons.mp hMem with rfl | hOlder
        · exact absurd hUnit hNewest
        · exact ih hLine.2 hOlder

/- The operations of one unit follow one another. -/
theorem pairwise_apart
    (hLine : Timeline m table ops) :
    ops.reverse.Pairwise
      (fun c d => c.resource = d.resource →
        c.endCycle ≤ d.startCycle) := by
  rw [List.pairwise_reverse]
  induction ops with
  | nil => exact .nil
  | cons newest older ih =>
      refine .cons ?_ (ih hLine.2)
      intro c hMem hUnit
      exact Nat.le_trans (hLine.2.endCycle_le_lastEnd hMem hUnit)
        (lastEnd_le_startCycle hLine.1)

/- The cycles in which a unit works, added up newest first. -/
theorem busy_le_lastEnd
    {r : Resource}
    (hLine : Timeline m table ops) :
    ((ops.filter (fun op => op.resource = r)).map
        (fun op => op.endCycle - op.startCycle)).foldr
      (fun cycles busy => Count.addSat busy cycles) 0 ≤
      lastEnd (fun d => d.resource = r) ops := by
  induction ops with
  | nil => exact Nat.zero_le _
  | cons newest older ih =>
      have hBusy := ih hLine.2
      by_cases hNewest : newest.resource = r
      · have hFree :
            lastEnd (fun d => d.resource = r) older ≤ newest.startCycle := by
          rw [← hNewest]
          exact lastEnd_le_startCycle hLine.1
        have hTakes := hLine.startCycle_le_endCycle
        rw [lastEnd_cons, if_pos (decide_eq_true hNewest),
          List.filter_cons_of_pos (by simpa using hNewest),
          List.map_cons, List.foldr_cons]
        refine Nat.le_trans (Nat.min_le_left _ _) ?_
        omega
      · rw [lastEnd_cons, if_neg (by simpa using hNewest),
          List.filter_cons_of_neg (by simpa using hNewest)]
        exact hBusy

end Timeline

end Times

------------------------------------------------------------
-- Schedules
------------------------------------------------------------

/- Tables that give the same layouts to the same tensors. -/
def TensorTable.SameLayouts (table table' : TensorTable) : Prop :=
  ∀ t, (table'.get? t).map (·.layout) = (table.get? t).map (·.layout)

theorem TensorTable.sameLayouts_modify
    (table : TensorTable)
    (t : TensorId)
    (slot : DramSlot)
    (location : Option DramLocation) :
    table.SameLayouts (table.modify t (·.setSlot slot location)) := by
  intro u
  rw [get?_modify]
  by_cases hSame : u = t
  · rw [if_pos hSame, Option.map_map]
    congr 1
    funext tensor
    exact tensor.layout_setSlot slot location
  · rw [if_neg hSame]

theorem TensorTable.SameLayouts.fetch_cases
    {table table' : TensorTable}
    (hSame : table.SameLayouts table')
    (t : TensorId) :
    (∃ e, table.fetch t = .error e ∧ table'.fetch t = .error e) ∨
      ∃ tensor tensor', table.fetch t = .ok tensor ∧
        table'.fetch t = .ok tensor' ∧ tensor'.layout = tensor.layout := by
  have hLayout := hSame t
  unfold TensorTable.fetch
  cases hOld : table.get? t with
  | none =>
      rw [hOld, Option.map_none, Option.map_eq_none_iff] at hLayout
      rw [hLayout]
      exact .inl ⟨_, rfl, rfl⟩
  | some tensor =>
      rw [hOld, Option.map_some, Option.map_eq_some_iff] at hLayout
      rcases hLayout with ⟨tensor', hNew, hEq⟩
      rw [hNew]
      exact .inr ⟨tensor, tensor', rfl, rfl, hEq⟩

/- The cycles of an operation depend on layouts only. -/
theorem Operation.cycles_eq_of_sameLayouts
    {table table' : TensorTable}
    (hSame : table.SameLayouts table')
    (m : Machine)
    (op : Operation) :
    op.cycles m table' = op.cycles m table := by
  have hMove : ∀ t, moveCycles m table' t = moveCycles m table t := by
    intro t
    rcases hSame.fetch_cases t with
      ⟨e, hOld, hNew⟩ | ⟨tensor, tensor', hOld, hNew, hEq⟩
    · simp [moveCycles, hOld, hNew]
    · simp [moveCycles, hOld, hNew, hEq]
  unfold Operation.cycles
  split
  case isTrue => rfl
  case isFalse =>
    cases op with
    | load t => exact hMove t
    | reload t => exact hMove t
    | store t => exact hMove t
    | spill t => exact hMove t
    | matMul input weights bias output =>
        rcases hSame.fetch_cases input with
          ⟨e, hOld, hNew⟩ | ⟨tensor, tensor', hOld, hNew, hEq⟩
        · simp only [hOld, hNew]
          rfl
        · rcases hSame.fetch_cases output with
            ⟨e, hOldOut, hNewOut⟩ | ⟨out, out', hOldOut, hNewOut, hEqOut⟩
          · simp only [hOld, hNew, hOldOut, hNewOut]
            rfl
          · simp [hOld, hNew, hEq, hOldOut, hNewOut, hEqOut, bind,
              Except.bind]
    | accumulate input output add =>
        rcases hSame.fetch_cases input with
          ⟨e, hOld, hNew⟩ | ⟨tensor, tensor', hOld, hNew, hEq⟩
        · simp [hOld, hNew]
        · simp [hOld, hNew, hEq]
    | activate input output activation =>
        rcases hSame.fetch_cases input with
          ⟨e, hOld, hNew⟩ | ⟨tensor, tensor', hOld, hNew, hEq⟩
        · cases activation <;> simp [hOld, hNew]
        · cases activation <;> simp [hOld, hNew, hEq]

/- A run of a workbench whose operations have consistent times. -/
structure Run.Timed
    (bench : Workbench)
    (run : Run) : Prop where
  machine : run.bench.machine = bench.machine
  layouts : bench.tensors.SameLayouts run.bench.tensors
  line : Timeline bench.machine bench.tensors run.committed

/- A new operation starts when it is ready. -/
theorem Run.stable_timed
    (bench : Workbench) :
    Run.Stable (Run.Timed bench) := by
  constructor
  case memory =>
    intro run memory hTimed
    exact ⟨hTimed.machine, hTimed.layouts, hTimed.line⟩
  case retire =>
    intro run op i cycles hTimed
    refine ⟨hTimed.machine, hTimed.layouts, ?_⟩
    rw [Run.retire, Ledger.committed_retire]
    exact hTimed.line
  case reserve =>
    intro run t location bench' hReserve hTimed
    unfold Workbench.reserveSlot at hReserve
    split at hReserve
    case h_1 => cases hReserve
    case h_2 tensor hFetch =>
      split at hReserve
      case h_1 => cases hReserve
      case h_2 =>
        cases hReserve
        refine ⟨hTimed.machine, ?_, hTimed.line⟩
        intro u
        exact (TensorTable.sameLayouts_modify _ _ _ _ u).trans
          (hTimed.layouts u)
  case append =>
    intro run op origin encoded cycles _ hCycles hTimed
    refine ⟨hTimed.machine, hTimed.layouts, ?_, hTimed.line⟩
    constructor
    case resource => rfl
    case start => exact Run.isGreatest_readyAt rfl
    case stop =>
      refine ⟨cycles, ?_, rfl⟩
      rw [← hCycles, hTimed.machine,
        Operation.cycles_eq_of_sameLayouts hTimed.layouts]
      rfl

theorem Run.busyCycles_schedule
    (run : Run)
    (r : Resource) :
    run.schedule.busyCycles r =
      ((run.committed.filter (fun op => op.resource = r)).map
          (fun op => op.endCycle - op.startCycle)).foldr
        (fun cycles busy => Count.addSat busy cycles) 0 := by
  simp only [Schedule.busyCycles, Run.schedule, List.filter_reverse,
    List.map_reverse, List.foldl_reverse]

/-
  The cycles of a schedule agree with one another: every operation
  starts and ends as it should, the operations of one unit do not
  overlap, and no unit is reported to work for more than all of
  the cycles.
-/
structure Schedule.Consistent
    (m : Machine)
    (table : TensorTable)
    (s : Schedule) : Prop where
  timed :
    ∀ earlier c later, s.ops = earlier ++ c :: later →
      c.Timed m table earlier
  apart :
    s.ops.Pairwise (fun c d => c.resource = d.resource →
      c.endCycle ≤ d.startCycle)
  busy_le : ∀ r, s.busyCycles r ≤ s.totalCycles
  reported :
    ∀ stats dram r,
      percentTenths ((Summary.collect m s stats dram).busy r)
        (Summary.collect m s stats dram).totalCycles ≤ 1000

theorem Run.Timed.busyCycles_le
    {bench : Workbench}
    {run : Run}
    (hTimed : run.Timed bench)
    (r : Resource) :
    run.schedule.busyCycles r ≤ run.schedule.totalCycles := by
  rw [run.busyCycles_schedule]
  refine Nat.le_trans hTimed.line.busy_le_lastEnd ?_
  rcases lastEnd_eq_or run.committed
    (fun d => d.resource = r) with hZero | ⟨d, hLatest, hEnd⟩
  · rw [hZero]
    exact Nat.zero_le _
  · rw [← hEnd]
    rcases hLatest with ⟨front, back, hSplit, -⟩
    have hMem : d ∈ run.schedule.ops := by
      rw [Run.schedule, hSplit]
      simp
    exact (isGreatest_foldl_max _ 0).2 (.inr (List.mem_map_of_mem hMem))

/- The last run of a schedule, whatever its program and memories. -/
theorem Workbench.timed_of_ok
    {lookahead : Nat}
    {program : List Operation}
    {bench bench' : Workbench}
    {s : Schedule}
    (hSchedule : schedule program lookahead bench = .ok s bench') :
    ∃ run : Run, run.Timed bench ∧ s = run.schedule ∧
      bench' = run.bench :=
  schedule_keeps (Run.stable_timed bench)
    (fun _ => ⟨rfl, fun _ => rfl, trivial⟩) hSchedule

/-
  The cycles of every schedule are consistent, whatever the
  program and the memories that it starts with.
-/
theorem Workbench.schedule_consistent
    {lookahead : Nat}
    {program : List Operation}
    {bench bench' : Workbench}
    {s : Schedule}
    (hSchedule : schedule program lookahead bench = .ok s bench') :
    s.Consistent bench.machine bench.tensors := by
  rcases timed_of_ok hSchedule with ⟨run, hTimed, rfl, -⟩
  constructor
  case timed =>
    intro earlier c later hSplit
    exact hTimed.line.timed_of_split hSplit
  case apart => exact hTimed.line.pairwise_apart
  case busy_le => exact hTimed.busyCycles_le
  case reported =>
    intro stats dram r
    cases r <;> exact percentTenths_le (hTimed.busyCycles_le _)

/-
  With one vector in each memory, the times of a schedule that
  stores two tensors and brings them back.
-/
theorem Workbench.schedule_consistent_rectifiedSum :
    ∃ x : Scheduled,
      schedule x.program 8 x.before = .ok x.schedule x.after ∧
      x.schedule.ops.map (fun c => (c.startCycle, c.endCycle)) =
        [(0, 1), (1, 2), (2, 4), (4, 5), (1, 2), (4, 5), (5, 7), (7, 8),
          (2, 3), (7, 8), (3, 4), (8, 9), (9, 10), (10, 11)] ∧
      x.schedule.busyCycles .compute = 9 ∧
      x.schedule.totalCycles = 11 ∧
      x.schedule.Consistent x.before.machine x.before.tensors := by
  have hFacts :
      (scheduleNetwork? rectifiedSum ["sum"] oneVector 8).map
        (fun x =>
          (x.schedule.ops.map (fun c => (c.startCycle, c.endCycle)),
            x.schedule.busyCycles .compute, x.schedule.totalCycles)) =
      some
        ([(0, 1), (1, 2), (2, 4), (4, 5), (1, 2), (4, 5), (5, 7), (7, 8),
          (2, 3), (7, 8), (3, 4), (8, 9), (9, 10), (10, 11)], 9, 11) := by
    decide +kernel
  rcases Option.map_eq_some_iff.mp hFacts with ⟨x, hScheduled, hSeen⟩
  simp only [Prod.mk.injEq] at hSeen
  rcases hSeen with ⟨hTimes, hBusy, hTotal⟩
  have hSchedule := (scheduleNetwork?_eq_some hScheduled).2
  exact ⟨x, hSchedule, hTimes, hBusy, hTotal,
    schedule_consistent hSchedule⟩

end Systolic
