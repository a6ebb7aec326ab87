import Mathlib.Logic.Relation
import Mathlib.Order.Bounds.Basic
import Systolic.Proofs.Schedule.Order
import Systolic.Proofs.Schedule.Round

/-
  This file proves that only the oldest operation of a program
  disturbs the memories. What the scheduler adds and every
  eviction is followed by the oldest operation that waits, and
  an operation that overtakes an older one is committed in a
  round of its own.

  Key definitions include:
    * `Waiting`
    * `OldestNext`
    * `Run.Alone`
    * `Run.HeadOnly`

  Key theorems include:
    * `Run.HeadOnly.round`
    * `Commit.forM_next_headOnly`
    * `Workbench.schedule_disturbs_for_oldest`
-/

namespace Systolic

------------------------------------------------------------
-- The Oldest Operation
------------------------------------------------------------

/- The places of a program that are not among the committed ones. -/
def Waiting
    (n : Nat)
    (ops : List CommittedOp) : Set Nat :=
  { i | i < n ∧ i ∉ places ops }

/- The place of the first operation of the program from a position on. -/
def nextPlace?
    (ops : List CommittedOp)
    (p : Nat) : Option Nat :=
  (ops.drop p).findSome? (·.origin)

/-
  From a position on, the first operation of the program is the
  oldest one that waits there.
-/
def OldestNext
    (n : Nat)
    (ops : List CommittedOp)
    (p : Nat) : Prop :=
  ∃ i, nextPlace? ops p = some i ∧ IsLeast (Waiting n (ops.take p)) i

section Positions

variable {n i p : Nat} {ops added : List CommittedOp} {c : CommittedOp}

theorem places_append
    (ops ops' : List CommittedOp) :
    places (ops ++ ops') = places ops ++ places ops' :=
  List.filterMap_append

theorem places_of_added
    (hAdded : ∀ d ∈ added, d.origin = none) :
    places added = [] :=
  List.filterMap_eq_nil_iff.mpr hAdded

/- What the scheduler adds leaves the same places waiting. -/
theorem waiting_append_added
    (hAdded : ∀ d ∈ added, d.origin = none) :
    Waiting n (ops ++ added) = Waiting n ops := by
  unfold Waiting
  rw [places_append, places_of_added hAdded, List.append_nil]

/- Later operations change nothing. -/
theorem OldestNext.append
    (hNext : OldestNext n ops p)
    (more : List CommittedOp) :
    OldestNext n (ops ++ more) p := by
  rcases hNext with ⟨i, hPlace, hOldest⟩
  have hInside : p ≤ ops.length := by
    by_contra hBeyond
    unfold nextPlace? at hPlace
    rw [List.drop_eq_nil_of_le (by omega)] at hPlace
    cases hPlace
  refine ⟨i, ?_, ?_⟩
  · unfold nextPlace? at hPlace ⊢
    rw [List.drop_append_of_le_length hInside, List.findSome?_append,
      hPlace]
    rfl
  · rw [List.take_append_of_le_length hInside]
    exact hOldest

/-
  Operations that are added before the oldest one that waits are
  followed by it.
-/
theorem oldestNext_of_added
    (hOldest : IsLeast (Waiting n ops) i)
    (hAdded : ∀ d ∈ added, d.origin = none)
    (hOrigin : c.origin = some i)
    (hFrom : ops.length ≤ p)
    (hTo : p ≤ ops.length + added.length) :
    OldestNext n (ops ++ (added ++ [c])) p := by
  rcases Nat.exists_eq_add_of_le hFrom with ⟨k, rfl⟩
  have hInside : k ≤ added.length := by omega
  refine ⟨i, ?_, ?_⟩
  · have hNone : (added.drop k).findSome? (·.origin) = none :=
      List.findSome?_eq_none_iff.mpr
        (fun d hD => hAdded d (List.mem_of_mem_drop hD))
    unfold nextPlace?
    rw [List.drop_length_add_append,
      List.drop_append_of_le_length hInside, List.findSome?_append, hNone]
    simp [hOrigin]
  · rw [List.take_length_add_append,
      List.take_append_of_le_length hInside, waiting_append_added]
    · exact hOldest
    · exact fun d hD => hAdded d (List.mem_of_mem_take hD)

/- An operation of a round was there before, was added, or is the last. -/
theorem getElem?_round_cases
    {d : CommittedOp}
    (hGet : (ops ++ (added ++ [c]))[p]? = some d) :
    (p < ops.length ∧ ops[p]? = some d) ∨
      (ops.length ≤ p ∧ p < ops.length + added.length ∧ d ∈ added) ∨
      (p = ops.length + added.length ∧ d = c) := by
  rw [← List.append_assoc] at hGet
  rcases getElem?_push_cases hGet with ⟨hBefore, hOld⟩ | ⟨hLast, hSame⟩
  · rw [List.length_append] at hBefore
    rcases Nat.lt_or_ge p ops.length with hInside | hBeyond
    · rw [List.getElem?_append_left hInside] at hOld
      exact .inl ⟨hInside, hOld⟩
    · rw [List.getElem?_append_right hBeyond] at hOld
      exact .inr (.inl ⟨hBeyond, hBefore, List.mem_of_getElem? hOld⟩)
  · rw [List.length_append] at hLast
    exact .inr (.inr ⟨hLast, hSame⟩)

/- The first place that is left is the least one. -/
theorem isLeast_waiting
    (hFirst :
      ((List.range n).filter (· ∉ places ops)).head? = some i) :
    IsLeast (Waiting n ops) i := by
  rw [List.head?_filter, List.find?_range_eq_some] at hFirst
  rcases hFirst with ⟨hLeft, hPlace, hBefore⟩
  refine ⟨⟨List.mem_range.mp hPlace, of_decide_eq_true hLeft⟩, ?_⟩
  intro k hK
  by_contra hLess
  have hCommitted := hBefore k (by omega)
  rw [Bool.not_eq_true', decide_eq_false_iff_not, not_not] at hCommitted
  exact hK.2 hCommitted

end Positions

------------------------------------------------------------
-- Rounds
------------------------------------------------------------

namespace Run

variable {n window : Nat} {start run run' : Run}

/- A round leads from one run to the next. -/
def Next
    (window : Nat)
    (run run' : Run) : Prop :=
  Commit.next window run = .ok () run'

/-
  A committed operation is the only one of its round. Its
  operands are on the chip, its result is placed at once, and
  nothing is evicted.
-/
structure Alone
    (window : Nat)
    (start : Run)
    (ops : List CommittedOp)
    (p : Nat)
    (c : CommittedOp)
    (run run' : Run) : Prop where
  reached : Relation.ReflTransGen (Next window) start run
  next : run.Next window run'
  before : run.schedule.ops = ops.take p
  after : run'.schedule.ops = ops.take p ++ [c]
  clean : run.Clean c.operation run'

theorem Alone.append
    {ops : List CommittedOp}
    {p : Nat}
    {c : CommittedOp}
    (hAlone : Alone window start ops p c run run')
    (hInside : p ≤ ops.length)
    (more : List CommittedOp) :
    Alone window start (ops ++ more) p c run run' := by
  have hTake : (ops ++ more).take p = ops.take p :=
    List.take_append_of_le_length hInside
  refine ⟨hAlone.reached, hAlone.next, ?_, ?_, hAlone.clean⟩
  · rw [hTake]
    exact hAlone.before
  · rw [hTake]
    exact hAlone.after

/-
  A run in which only the oldest operation has disturbed the
  memories. The pending places are those that wait.
-/
structure HeadOnly
    (run : Run)
    (n window : Nat)
    (start : Run) : Prop where
  recorded : run.bench.memory.Recorded
  waiting :
    run.pending.map Prod.fst =
      (List.range n).filter (· ∉ places run.schedule.ops)
  added :
    ∀ (p : Nat) (c : CommittedOp), run.schedule.ops[p]? = some c →
      c.origin = none → OldestNext n run.schedule.ops p
  evicted :
    ∀ b ∈ run.bench.memory.history, b.spilled = true →
      ∃ p ∈ b.releasedAt, OldestNext n run.schedule.ops p
  committed :
    ∀ (p : Nat) (c : CommittedOp) (i : Nat),
      run.schedule.ops[p]? = some c → c.origin = some i →
        IsLeast (Waiting n (run.schedule.ops.take p)) i ∨
          ∃ r r', Alone window start run.schedule.ops p c r r'

/- The places that wait after one of them is taken. -/
theorem waiting_eraseP
    {i : Nat}
    {pending : List (Nat × Operation)}
    {taken : List Nat}
    (hWaiting :
      pending.map Prod.fst = (List.range n).filter (· ∉ taken)) :
    (pending.eraseP (fun p => p.1 = i)).map Prod.fst =
      (List.range n).filter (· ∉ taken ++ [i]) := by
  have hNodup : (pending.map Prod.fst).Nodup := by
    rw [hWaiting]
    exact List.nodup_range.filter _
  have hErase :
      (pending.eraseP (fun p => p.1 = i)).map Prod.fst =
        (pending.map Prod.fst).erase i := by
    rw [List.erase_eq_eraseP', List.eraseP_map]
    rfl
  rw [hErase, hNodup.erase_eq_filter, hWaiting, List.filter_filter]
  apply List.filter_congr
  intro k _
  rw [Bool.eq_iff_iff]
  simp [and_comm]

/- A round keeps what is known of the runs before it. -/
theorem HeadOnly.round
    {i : Nat}
    {op : Operation}
    (hHead : run.HeadOnly n window start)
    (hReached : Relation.ReflTransGen (Next window) start run)
    (hNext : run.Next window run')
    (hRound : run.Round i op run') :
    run'.HeadOnly n window start := by
  rcases hRound.commits with
    ⟨added, c, hOps, rfl, hOrigin, hAdded, hMarked, hCases⟩
  have hLength : run.position = run.schedule.ops.length :=
    List.length_reverse.symm
  -- The oldest operation is the only one that may have disturbed.
  have hOldest :
      (run.pending.map Prod.fst).head? = some i →
        IsLeast (Waiting n run.schedule.ops) i := by
    rw [hHead.waiting]
    exact isLeast_waiting
  constructor
  case recorded => exact hRound.recorded
  case waiting =>
    have hPlaces :
        places run'.schedule.ops = places run.schedule.ops ++ [i] := by
      rw [hOps, places_append, places_push, places_of_added hAdded,
        hOrigin]
      rfl
    rw [hRound.pending, hPlaces]
    exact waiting_eraseP hHead.waiting
  case added =>
    intro p d hGet hNone
    rw [hOps] at hGet ⊢
    rcases getElem?_round_cases hGet with
      ⟨-, hOld⟩ | ⟨hFrom, hTo, -⟩ | ⟨-, rfl⟩
    · exact (hHead.added p d hOld hNone).append _
    · rcases hCases with hFirst | ⟨rfl, -⟩
      · exact oldestNext_of_added (hOldest hFirst) hAdded hOrigin hFrom
          (Nat.le_of_lt hTo)
      · rw [List.length_nil] at hTo
        omega
    · cases hNone.symm.trans hOrigin
  case evicted =>
    intro b hB hSpilled
    have hOld :
        b ∈ run.bench.memory.history →
          ∃ p ∈ b.releasedAt, OldestNext n run'.schedule.ops p := by
      intro hMem
      rcases hHead.evicted b hMem hSpilled with ⟨p, hP, hFollowed⟩
      refine ⟨p, hP, ?_⟩
      rw [hOps]
      exact hFollowed.append _
    rcases hCases with hFirst | ⟨-, hClean⟩
    · rcases hMarked b hB hSpilled with hMem | ⟨p, hP, hFrom, hTo⟩
      · exact hOld hMem
      · refine ⟨p, hP, ?_⟩
        rw [hOps]
        rw [hLength] at hFrom hTo
        exact oldestNext_of_added (hOldest hFirst) hAdded hOrigin hFrom hTo
    · exact hOld (hClean.marked b hB hSpilled)
  case committed =>
    intro p d k hGet hPlace
    rw [hOps] at hGet ⊢
    rcases getElem?_round_cases hGet with
      ⟨hInside, hOld⟩ | ⟨-, -, hMem⟩ | ⟨rfl, rfl⟩
    · have hBefore := Nat.le_of_lt hInside
      rcases hHead.committed p d k hOld hPlace with
        hLeast | ⟨r, r', hAlone⟩
      · left
        rw [List.take_append_of_le_length hBefore]
        exact hLeast
      · exact .inr ⟨r, r', hAlone.append hBefore _⟩
    · cases (hAdded d hMem).symm.trans hPlace
    · cases hOrigin.symm.trans hPlace
      have hTake :
          (run.schedule.ops ++ (added ++ [d])).take
              (run.schedule.ops.length + added.length) =
            run.schedule.ops ++ added := by
        rw [List.take_length_add_append, List.take_left]
      rcases hCases with hFirst | ⟨rfl, hClean⟩
      · left
        rw [hTake, waiting_append_added hAdded]
        exact hOldest hFirst
      · rw [List.append_nil] at hTake
        refine .inr ⟨run, run', hReached, hNext, hTake.symm, ?_, hClean⟩
        rw [hTake]
        exact hOps

/- Nothing is committed at first, and all places wait. -/
theorem headOnly_start
    {near far : Nat}
    {program : List Operation}
    {bench : Workbench}
    (hEmpty : bench.memory = .empty near far)
    (backlog : UnitCycles) :
    (Run.start bench program backlog).HeadOnly program.length window
      (Run.start bench program backlog) := by
  constructor
  case recorded =>
    intro r hR
    change r ∈ bench.memory.residents at hR
    rw [hEmpty] at hR
    cases hR
  case waiting =>
    change (located program).map Prod.fst =
      (List.range program.length).filter (· ∉ ([] : List Nat))
    rw [map_fst_located, List.filter_eq_self.mpr (by simp)]
  case added =>
    intro p c hGet
    cases hGet
  case evicted =>
    intro b hB
    change b ∈ bench.memory.history at hB
    rw [hEmpty] at hB
    cases hB
  case committed =>
    intro p c i hGet
    cases hGet

end Run

/- What holds after all rounds of a scheduler. -/
theorem Commit.forM_next_headOnly
    {n window : Nat}
    {start : Run}
    {rounds : List Operation}
    (hStart : start.HeadOnly n window start) :
    Ensures (rounds.forM (fun _ => next window)) start (fun _ => True)
      (fun _ run => run.HeadOnly n window start) := by
  have hRounds :
      Ensures (rounds.forM (fun _ => next window)) start (fun _ => True)
        (fun _ run => Relation.ReflTransGen (Run.Next window) start run ∧
          run.HeadOnly n window start) := by
    refine Ensures.forM
      (fun _ run => Relation.ReflTransGen (Run.Next window) start run ∧
        run.HeadOnly n window start) ⟨.refl, hStart⟩ ?_
    rintro _ _ run ⟨hReached, hHead⟩
    have hRuns := next_round window hHead.recorded
    unfold Ensures
    cases hNext : next window run with
    | error e run' => trivial
    | ok result run' =>
        refine ⟨hReached.tail hNext, ?_⟩
        rcases hRuns.of_ok hNext with rfl | ⟨i, op, hRound⟩
        · exact hHead
        · exact hHead.round hReached hNext hRound
  exact hRounds.weaken (fun _ _ hBoth => hBoth.2)

------------------------------------------------------------
-- Schedules
------------------------------------------------------------

/-
  Only the oldest operation of a program disturbs the memories.
  The first operation of the program after one that the
  scheduler added, or after an eviction, is the oldest one that
  waited then. The history has all evictions. An operation that
  overtakes another one is committed alone, in a round after
  which the schedule goes on.
-/
structure Workbench.DisturbsForOldest
    (bench : Workbench)
    (program : List Operation)
    (lookahead : Nat)
    (s : Schedule)
    (bench' : Workbench) : Prop where
  added :
    ∀ (p : Nat) (c : CommittedOp), s.ops[p]? = some c →
      c.origin = none → OldestNext program.length s.ops p
  evicted :
    ∀ b ∈ bench'.memory.history, b.spilled = true →
      ∃ p ∈ b.releasedAt, OldestNext program.length s.ops p
  tallied :
    bench'.memory.stats.spills =
      bench'.memory.history.countP (·.spilled)
  overtaking :
    ∀ (p : Nat) (c : CommittedOp) (i k : Nat),
      s.ops[p]? = some c → c.origin = some i →
        k ∈ Waiting program.length (s.ops.take p) → k < i →
          ∃ backlog run run',
            checkProgram bench.machine bench.tensors 0 [] .zero program =
                .ok backlog ∧
              Run.Alone (max lookahead 1)
                (Run.start bench program backlog) s.ops p c run run'

namespace Workbench

/- The last run of a schedule and the rounds that lead to it. -/
theorem headOnly_of_ok
    {near far lookahead : Nat}
    {program : List Operation}
    {bench bench' : Workbench}
    {s : Schedule}
    (hEmpty : bench.memory = .empty near far)
    (hSchedule : schedule program lookahead bench = .ok s bench') :
    ∃ (backlog : UnitCycles) (run : Run),
      checkProgram bench.machine bench.tensors 0 [] .zero program =
          .ok backlog ∧
        s = run.schedule ∧ bench' = run.bench ∧
        run.HeadOnly program.length (max lookahead 1)
          (Run.start bench program backlog) := by
  unfold schedule at hSchedule
  cases hCheck :
      checkProgram bench.machine bench.tensors 0 [] .zero program with
  | error e =>
      rw [hCheck] at hSchedule
      cases hSchedule
  | ok backlog =>
      rw [hCheck] at hSchedule
      dsimp only at hSchedule
      have hAll :
          Ensures
            (program.forM (fun _ => Commit.next (max lookahead 1)) >>=
              fun _ => Commit.audit)
            (Run.start bench program backlog) (fun _ => True)
            (fun _ run =>
              run.HeadOnly program.length (max lookahead 1)
                (Run.start bench program backlog)) := by
        refine (Commit.forM_next_headOnly
          (Run.headOnly_start hEmpty backlog)).bind ?_
        intro _ run hHead
        unfold Commit.audit
        simp only [ensures_bind, ensures_get]
        split
        case h_1 => exact hHead
        case h_2 => trivial
      split at hSchedule
      case h_1 run hRun =>
        cases hSchedule
        exact ⟨backlog, run, rfl, rfl, rfl, hAll.of_ok hRun⟩
      case h_2 => cases hSchedule

/-
  Only the oldest operation disturbs the memories in a schedule
  of any program that starts with empty ones.
-/
theorem schedule_disturbs_for_oldest
    {near far lookahead : Nat}
    {program : List Operation}
    {bench bench' : Workbench}
    {s : Schedule}
    (hEmpty : bench.memory = .empty near far)
    (hSchedule : schedule program lookahead bench = .ok s bench') :
    bench.DisturbsForOldest program lookahead s bench' := by
  rcases headOnly_of_ok hEmpty hSchedule with
    ⟨backlog, run, hCheck, rfl, rfl, hHead⟩
  constructor
  case added => exact hHead.added
  case evicted => exact hHead.evicted
  case tallied =>
    rcases schedules_of_ok hEmpty hSchedule with
      ⟨last, hSchedules, -, hBench⟩
    rw [hBench]
    exact hSchedules.sound.memory.tallied
  case overtaking =>
    intro p c i k hGet hOrigin hWaits hOlder
    rcases hHead.committed p c i hGet hOrigin with
      hLeast | ⟨r, r', hAlone⟩
    · have hFirst := hLeast.2 hWaits
      omega
    · exact ⟨backlog, r, r', hCheck, hAlone⟩

end Workbench

/- Three rectified inputs, of which the last two are added first. -/
def nestedSum : Network (Fin 8) where
  nodes := [0, 1, 2, 3, 4, 5, 6, 7]
  find? := fun name => if name = "sum" then some 7 else none
  name := fun n =>
    ["left", "middle", "right", "rectified left", "rectified middle",
      "rectified right", "inner", "sum"].getD n ""
  op := fun n =>
    [NodeOp.input [1, 2], .input [1, 2], .input [1, 2], .relu, .relu, .relu,
      .add, .add].getD n .add
  operands := fun n =>
    [[], [], [], [0], [1], [2], [4, 5], [3, 6]].getD n []

/-
  With two vectors on the chip, the second load overtakes an
  activation. The third input makes the first one leave, which
  comes back for the sum.
-/
theorem Workbench.schedule_disturbs_for_oldest_nestedSum :
    ∃ x : Scheduled,
      x.before.memory = .empty 2 1 ∧
      schedule x.program 3 x.before = .ok x.schedule x.after ∧
      x.schedule.ops.map (·.origin) =
        [some 0, some 1, some 3, some 2, some 4, some 5, none, some 6,
          some 7, some 8, some 9, some 10, some 11, none, some 12, some 13,
          some 14, some 15] ∧
      (x.after.memory.history.filter (·.spilled)).map (·.releasedAt) =
        [some 6] ∧
      x.before.DisturbsForOldest x.program 3 x.schedule x.after := by
  have hFacts :
      (scheduleNetwork? nestedSum ["sum"]
        { oneVector with localDepth := 2 } 3).map
        (fun x =>
          (x.before.memory, x.schedule.ops.map (·.origin),
            (x.after.memory.history.filter (·.spilled)).map
              (·.releasedAt))) =
      some (.empty 2 1,
        [some 0, some 1, some 3, some 2, some 4, some 5, none, some 6,
          some 7, some 8, some 9, some 10, some 11, none, some 12, some 13,
          some 14, some 15],
        [some 6]) := by
    decide +kernel
  rcases Option.map_eq_some_iff.mp hFacts with ⟨x, hScheduled, hSeen⟩
  simp only [Prod.mk.injEq] at hSeen
  rcases hSeen with ⟨hEmpty, hOrigins, hEvicted⟩
  have hSchedule := (scheduleNetwork?_eq_some hScheduled).2
  exact ⟨x, hEmpty, hSchedule, hOrigins, hEvicted,
    schedule_disturbs_for_oldest hEmpty hSchedule⟩

end Systolic
