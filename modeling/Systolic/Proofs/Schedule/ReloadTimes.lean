import Systolic.Proofs.Lowering.Layouts
import Systolic.Proofs.Schedule.Order
import Systolic.Proofs.Schedule.Timeline

/-
  This file proves for which cycle a tensor that is brought back
  waits. Bringing it back reads nothing on the chip, so it starts
  as soon as the load unit is free. That may be before the tensor
  has been stored, though it is committed after that.

  Key theorems include:
    * `Workbench.reload_waits_for_loads`
    * `Workbench.reload_before_spill_rectifiedSum`
-/

namespace Systolic

/- If any operation has a property, one is the last of them. -/
theorem CommittedOp.exists_latest
    {ops : List CommittedOp}
    {P : CommittedOp → Prop}
    {c : CommittedOp}
    (hMem : c ∈ ops)
    (hP : P c) :
    ∃ d, Latest ops P d := by
  classical
  have hSome : (ops.reverse.find? (fun d => P d)).isSome := by
    rw [List.find?_isSome]
    exact ⟨c, List.mem_reverse.mpr hMem, decide_eq_true hP⟩
  rcases Option.isSome_iff_exists.mp hSome with ⟨d, hFind⟩
  refine ⟨d, ?_⟩
  rw [← List.reverse_reverse ops]
  exact latest_reverse_iff.mpr hFind

namespace Run.Timed

variable {bench : Workbench}
variable {run : Run}
variable {p : Nat}
variable {t : TensorId}
variable {c : CommittedOp}

/- The times of an operation at a place of a schedule. -/
theorem timed_at
    (hTimed : run.Timed bench)
    (hGet : run.schedule.ops[p]? = some c) :
    c.Timed bench.machine bench.tensors (run.schedule.ops.take p) := by
  rcases List.getElem?_eq_some_iff.mp hGet with ⟨hInside, rfl⟩
  have hSplit :
      run.committed.reverse =
        run.schedule.ops.take p ++
          run.schedule.ops[p] :: run.schedule.ops.drop (p + 1) := by
    rw [List.getElem_cons_drop, List.take_append_drop]
    rfl
  exact hTimed.line.timed_of_split hSplit

/- Every operation is committed on its own unit. -/
theorem unit_eq
    (hTimed : run.Timed bench) :
    ∀ c ∈ run.schedule.ops, c.resource = c.operation.resource := by
  intro c hMem
  rcases List.mem_iff_getElem?.mp hMem with ⟨p, hGet⟩
  exact (hTimed.timed_at hGet).resource

/- A tensor is brought back as soon as the load unit is free. -/
theorem reload_start
    (hTimed : run.Timed bench)
    (hGet : run.schedule.ops[p]? = some c)
    (hReload : c.operation = .reload t) :
    IsGreatest
      {cycle | cycle = 0 ∨
        ∃ d, CommittedOp.Latest (run.schedule.ops.take p)
          (fun d => d.resource = .load) d ∧ d.endCycle = cycle}
      c.startCycle := by
  have hTimes := hTimed.timed_at hGet
  have hUnit : c.resource = .load := by
    rw [hTimes.resource, hReload]
    rfl
  have hNothing : c.operation.reads = [] := by
    rw [hReload]
    rfl
  have hSame :
      c.Awaits (run.schedule.ops.take p) =
        {cycle | cycle = 0 ∨
          ∃ d, CommittedOp.Latest (run.schedule.ops.take p)
            (fun d => d.resource = .load) d ∧ d.endCycle = cycle} := by
    unfold CommittedOp.Awaits
    simp only [hUnit, hNothing, List.not_mem_nil, false_and,
      exists_false, or_false]
  rw [← hSame]
  exact hTimes.start

/- No earlier operation of the load unit ends after that. -/
theorem load_le_reload
    {d : CommittedOp}
    (hTimed : run.Timed bench)
    (hGet : run.schedule.ops[p]? = some c)
    (hReload : c.operation = .reload t)
    (hMem : d ∈ run.schedule.ops.take p)
    (hUnit : d.resource = .load) :
    d.endCycle ≤ c.startCycle := by
  have hLoad : c.resource = .load := by
    rw [(hTimed.timed_at hGet).resource, hReload]
    rfl
  have hApart := hTimed.line.pairwise_apart
  rcases List.mem_iff_getElem?.mp hMem with ⟨k, hK⟩
  rw [List.getElem?_take] at hK
  split at hK
  case isFalse => cases hK
  case isTrue hBefore =>
    rcases List.getElem?_eq_some_iff.mp hGet with ⟨hInside, rfl⟩
    rcases List.getElem?_eq_some_iff.mp hK with ⟨hInside', rfl⟩
    exact List.pairwise_iff_getElem.mp hApart k p hInside' hInside
      hBefore (hUnit.trans hLoad.symm)

end Run.Timed

/- What is read or moved in a schedule was written before. -/
theorem Workbench.wrote_of_ok
    {near far lookahead k : Nat}
    {program : List Operation}
    {bench bench' : Workbench}
    {s : Schedule}
    {c : CommittedOp}
    {t : TensorId}
    (hEmpty : bench.memory = .empty near far)
    (hSchedule : schedule program lookahead bench = .ok s bench')
    (hGet : s.ops[k]? = some c)
    (hReads : t ∈ c.operation.reads) :
    Wrote (s.ops.take k) t := by
  rcases schedules_of_ok hEmpty hSchedule with
    ⟨run, hSchedules, rfl, rfl⟩
  have hOrdered :
      run.journal.Ordered (bench.taskOf program lookahead) :=
    hSchedules.invariant (Journal.ordered_start bench _)
      (fun j j' hLegal hBefore hStep =>
        hBefore.step hSchedules.single hLegal hStep)
  exact (hOrdered.follows k c hGet).defined t hReads

/- Whatever reads nothing keeps the load unit busy. -/
theorem Operation.exists_reads
    {op : Operation}
    (hUnit : op.resource ≠ .load) :
    ∃ t, t ∈ op.reads := by
  cases op with
  | load t => exact absurd rfl hUnit
  | reload t => exact absurd rfl hUnit
  | store t => exact ⟨t, List.mem_singleton_self t⟩
  | spill t => exact ⟨t, List.mem_singleton_self t⟩
  | matMul input weights bias output =>
      exact ⟨input, by simp [reads, mem_distinct]⟩
  | accumulate input output add =>
      exact ⟨input, by cases add <;> simp [reads, mem_distinct]⟩
  | activate input output activation =>
      exact ⟨input, List.mem_singleton_self input⟩

/-
  Values enter the chip through the load unit, so it has worked
  before anything that reads is committed.
-/
theorem CommittedOp.exists_load
    {ops : List CommittedOp}
    {k : Nat}
    {c : CommittedOp}
    (hUnit : ∀ c ∈ ops, c.resource = c.operation.resource)
    (hWrote :
      ∀ k c t, ops[k]? = some c → t ∈ c.operation.reads →
        Wrote (ops.take k) t)
    (hGet : ops[k]? = some c) :
    ∃ e ∈ ops.take (k + 1), e.resource = .load := by
  induction k using Nat.strong_induction_on generalizing c with
  | _ k ih =>
      have hInside := (List.getElem?_eq_some_iff.mp hGet).1
      by_cases hLoad : c.resource = .load
      · refine ⟨c, List.mem_of_getElem? (i := k) ?_, hLoad⟩
        rw [List.getElem?_take_of_lt (Nat.lt_succ_self k), hGet]
      · rw [hUnit c (List.mem_of_getElem? hGet)] at hLoad
        rcases Operation.exists_reads hLoad with ⟨t, hReads⟩
        rcases hWrote k c t hGet hReads with ⟨d, hMem, -⟩
        rcases List.mem_take_iff_getElem.mp hMem with ⟨n, hN, rfl⟩
        rcases ih n (by omega)
            (List.getElem?_eq_getElem (by omega)) with
          ⟨e, hE, hEarlier⟩
        refine ⟨e, ?_, hEarlier⟩
        exact List.take_subset_take_left ops (by omega) hE

/-
  In the schedule of a lowered program, a tensor is brought back
  as soon as the load unit is free. If it was stored before, that
  waited for the value, but bringing it back waits for what was
  stored exactly if some earlier operation of the load unit does.
-/
theorem Workbench.reload_waits_for_loads
    {ν : Type}
    [DecidableEq ν]
    {net : Network ν}
    {outputs : List String}
    {nodes : List ν}
    {m : Machine}
    {lookahead p : Nat}
    {program : List Operation}
    {start bench bench' : Workbench}
    {s : Schedule}
    {t : TensorId}
    {c : CommittedOp}
    (hStart : ofMachine m = .ok start)
    (hLower : lowerNodes net outputs nodes start = .ok (program, bench))
    (hSchedule : schedule program lookahead bench = .ok s bench')
    (hGet : s.ops[p]? = some c)
    (hReload : c.operation = .reload t) :
    IsGreatest
      {cycle | cycle = 0 ∨
        ∃ d, CommittedOp.Latest (s.ops.take p)
          (fun d => d.resource = .load) d ∧ d.endCycle = cycle}
      c.startCycle ∧
    ∀ q d, q < p → s.ops[q]? = some d → d.operation = .spill t →
      (∃ e, CommittedOp.Latest (s.ops.take q)
        (fun e => e.operation.writes = some t) e ∧
          e.endCycle ≤ d.startCycle) ∧
      (d.endCycle ≤ c.startCycle ↔
        ∃ e ∈ s.ops.take p, e.resource = .load ∧
          d.endCycle ≤ e.endCycle) := by
  rcases lowerNodes_ends hStart hLower with
    ⟨plan, layout, low, hLowers, rfl, rfl⟩
  have hEmpty :
      low.bench.memory = .empty m.localDepth m.accumulatorDepth :=
    hLowers.untouched.memory_eq
  have hWrote := fun k c t => wrote_of_ok (k := k) (c := c) (t := t)
    hEmpty hSchedule
  rcases timed_of_ok hSchedule with ⟨run, hTimed, rfl, -⟩
  refine ⟨hTimed.reload_start hGet hReload, ?_⟩
  intro q d hBefore hGet' hSpill
  constructor
  · -- What is stored was computed, and storing it reads it.
    have hReads : t ∈ d.operation.reads := by
      rw [hSpill]
      exact List.mem_singleton_self t
    rcases hWrote q d t hGet' hReads with
      ⟨writer, hMem, -, hWrites⟩
    rcases CommittedOp.exists_latest
        (P := fun e => e.operation.writes = some t) hMem hWrites with
      ⟨e, hLatest⟩
    exact ⟨e, hLatest, (hTimed.timed_at hGet').start.2
      (.inr (.inr ⟨t, hReads, e, hLatest, rfl⟩))⟩
  · constructor
    · intro hLate
      rcases (hTimed.reload_start hGet hReload).1 with
        hZero | ⟨e, ⟨front, back, hSplit, hLoad, -⟩, hEnd⟩
      · rcases CommittedOp.exists_load hTimed.unit_eq hWrote hGet' with
          ⟨e, hMem, hLoad⟩
        refine ⟨e, List.take_subset_take_left _ (by omega) hMem, hLoad, ?_⟩
        omega
      · refine ⟨e, ?_, hLoad, hEnd ▸ hLate⟩
        rw [hSplit]
        exact List.mem_append_right _ List.mem_cons_self
    · rintro ⟨e, hMem, hLoad, hLate⟩
      exact Nat.le_trans hLate
        (hTimed.load_le_reload hGet hReload hMem hLoad)

/-
  With one vector in each memory, the first rectified input is
  stored until cycle 5, but brought back from cycle 2 on: the
  load unit is free, as none of its earlier operations ends late.
-/
theorem Workbench.reload_waits_for_loads_rectifiedSum :
    ∃ (x : Scheduled) (stored back : CommittedOp) (t : TensorId),
      schedule x.program 8 x.before = .ok x.schedule x.after ∧
      x.schedule.ops[3]? = some stored ∧ stored.operation = .spill t ∧
      x.schedule.ops[8]? = some back ∧ back.operation = .reload t ∧
      stored.endCycle = 5 ∧ back.startCycle = 2 ∧
      ¬ ∃ e ∈ x.schedule.ops.take 8, e.resource = .load ∧
        stored.endCycle ≤ e.endCycle := by
  have hFacts :
      (scheduleNetwork? rectifiedSum ["sum"] oneVector 8).map
        (fun x =>
          (x.schedule.ops[3]?.map (fun c => (c.operation, c.endCycle)),
            x.schedule.ops[8]?.map
              (fun c => (c.operation, c.startCycle)))) =
      some (some (.spill ⟨2⟩, 5), some (.reload ⟨2⟩, 2)) := by
    decide +kernel
  rcases Option.map_eq_some_iff.mp hFacts with ⟨x, hScheduled, hSeen⟩
  rcases Prod.mk.inj hSeen with ⟨hThird, hEighth⟩
  rcases Option.map_eq_some_iff.mp hThird with ⟨stored, hStored, hSpill⟩
  rcases Option.map_eq_some_iff.mp hEighth with ⟨back, hBack, hReload⟩
  rcases Prod.mk.inj hSpill with ⟨hSpill, hEnd⟩
  rcases Prod.mk.inj hReload with ⟨hReload, hBegin⟩
  rcases scheduleNetwork?_eq_some hScheduled with
    ⟨⟨start, hStart, hLowers⟩, hSchedule⟩
  rcases exists_lowerNodes hLowers with ⟨nodes, hLower⟩
  have hWaits :=
    (reload_waits_for_loads hStart hLower hSchedule hBack hReload).2
      3 stored (by decide) hStored hSpill
  refine ⟨x, stored, back, ⟨2⟩, hSchedule, hStored, hSpill, hBack, hReload,
    hEnd, hBegin, ?_⟩
  rw [← hWaits.2]
  omega

/-
  So a tensor can be brought back before it has been stored, and
  before it has been computed.
-/
theorem Workbench.reload_before_spill_rectifiedSum :
    ∃ (m : Machine) (start : Workbench) (nodes : List (Fin 5))
      (x : Scheduled) (computed stored back : CommittedOp) (t : TensorId),
      ofMachine m = .ok start ∧
      lowerNodes rectifiedSum ["sum"] nodes start =
        .ok (x.program, x.before) ∧
      schedule x.program 8 x.before = .ok x.schedule x.after ∧
      x.schedule.ops[2]? = some computed ∧
      computed.operation.writes = some t ∧
      x.schedule.ops[3]? = some stored ∧ stored.operation = .spill t ∧
      x.schedule.ops[8]? = some back ∧ back.operation = .reload t ∧
      back.startCycle < computed.endCycle ∧
      computed.endCycle < stored.endCycle := by
  have hFacts :
      (scheduleNetwork? rectifiedSum ["sum"] oneVector 8).map
        (fun x =>
          (x.schedule.ops[2]?.map
              (fun c => (c.operation.writes, c.endCycle)),
            x.schedule.ops[3]?.map (fun c => (c.operation, c.endCycle)),
            x.schedule.ops[8]?.map
              (fun c => (c.operation, c.startCycle)))) =
      some (some (some ⟨2⟩, 4), some (.spill ⟨2⟩, 5),
        some (.reload ⟨2⟩, 2)) := by
    decide +kernel
  rcases Option.map_eq_some_iff.mp hFacts with ⟨x, hScheduled, hSeen⟩
  simp only [Prod.mk.injEq, Option.map_eq_some_iff] at hSeen
  rcases hSeen with
    ⟨⟨computed, hSecond, hWrites, hDone⟩, ⟨stored, hThird, hSpill, hEnd⟩,
      ⟨back, hEighth, hReload, hBegin⟩⟩
  rcases scheduleNetwork?_eq_some hScheduled with
    ⟨⟨start, hStart, hLowers⟩, hSchedule⟩
  rcases exists_lowerNodes hLowers with ⟨nodes, hLower⟩
  exact ⟨_, start, nodes, x, computed, stored, back, ⟨2⟩, hStart, hLower,
    hSchedule, hSecond, hWrites, hThird, hSpill, hEighth, hReload,
    by omega, by omega⟩

end Systolic
