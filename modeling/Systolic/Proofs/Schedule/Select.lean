import Systolic.Proofs.Schedule.Commit

/-
  This file proves that a scheduler always finds an operation to
  commit next: one whose operands are defined and, on the array,
  the oldest one.

  Key definitions include:
    * `View.Eligible`

  Key theorems include:
    * `Run.standing_yields`
    * `Run.standing_oldest`
    * `Run.select_yields_of_standings`
    * `Run.select_yields`
-/

namespace Systolic

------------------------------------------------------------
-- Eligible Operations
------------------------------------------------------------

/- A pending operation that may commit before older ones. -/
structure View.Eligible
    (v : View)
    (i : Nat)
    (op : Operation) : Prop where
  pending : (i, op) ∈ v.pending
  oldest :
    op.resource = .compute →
      ∀ p ∈ v.pending, p.2.resource = .compute → i ≤ p.1
  defined : ∀ t ∈ op.reads, v.Defined t

namespace Run

variable {task : Task} {pins : List TensorId} {run : Run}
variable {i : Nat} {p oldest : Nat × Operation}

/- Before a place are the operations of smaller places. -/
theorem mem_takeWhile_place
    {ops : List (Nat × Operation)}
    (hSorted : ops.Pairwise (fun p q => p.1 < q.1)) :
    p ∈ ops.takeWhile (fun q => q.1 < i) ↔ p ∈ ops ∧ p.1 < i := by
  induction ops with
  | nil => simp
  | cons q qs ih =>
      rcases List.pairwise_cons.mp hSorted with ⟨hHead, hTail⟩
      by_cases hBefore : q.1 < i
      · rw [List.takeWhile_cons_of_pos (by simpa using hBefore),
          List.mem_cons, List.mem_cons, ih hTail]
        constructor
        · intro hMem
          rcases hMem with rfl | ⟨hMem, hLt⟩
          · exact ⟨.inl rfl, hBefore⟩
          · exact ⟨.inr hMem, hLt⟩
        · intro hMem
          rcases hMem with ⟨rfl | hMem, hLt⟩
          · exact .inl rfl
          · exact .inr ⟨hMem, hLt⟩
      · rw [List.takeWhile_cons_of_neg (by simpa using hBefore),
          List.mem_cons]
        constructor
        · intro hMem
          cases hMem
        · intro hMem
          rcases hMem with ⟨rfl | hMem, hLt⟩
          · exact absurd hLt hBefore
          · have hLater := hHead p hMem
            omega

/- The first pending operation of the array is its oldest one. -/
theorem IsOldestCompute.le
    (hOldest : run.IsOldestCompute i)
    (hSorted : run.pending.Pairwise (fun p q => p.1 < q.1))
    (hMem : p ∈ run.pending)
    (hCompute : p.2.resource = .compute) :
    i ≤ p.1 := by
  rcases Option.map_eq_some_iff.mp hOldest with ⟨q, hFind, rfl⟩
  rcases List.find?_eq_some_iff_append.mp hFind with
    ⟨-, before, after, hSplit, hNone⟩
  rw [hSplit] at hMem hSorted
  rcases List.mem_append.mp hMem with hBefore | hAfter
  · simpa [hCompute] using hNone p hBefore
  · rcases List.mem_cons.mp hAfter with rfl | hAfter
    · exact Nat.le_refl _
    · have hTail := (List.pairwise_append.mp hSorted).2.1
      exact Nat.le_of_lt ((List.pairwise_cons.mp hTail).1 p hAfter)

/- The only operation that writes a tensor is known to define it. -/
theorem producer_eq
    {j : Nat}
    {writer : Operation}
    {t : TensorId}
    (hSingle : SingleAssignment run.program)
    (hGet : run.program[j]? = some writer)
    (hWrites : writer.writes = some t) :
    run.index.producer t = some j := by
  rw [run.agrees.index, ProgramIndex.producer_ofPlaces]
  cases hFind :
      (located run.program).reverse.find? (fun p => p.2.writes = some t) with
  | none =>
      have hNone := List.find?_eq_none.mp hFind (j, writer)
        (List.mem_reverse.mpr (mem_located.mpr hGet))
      simp [hWrites] at hNone
  | some p =>
      have hMem := List.mem_reverse.mp (List.mem_of_find?_eq_some hFind)
      have hAgain := List.find?_some hFind
      rw [decide_eq_true_iff] at hAgain
      rw [Option.map_some,
        hSingle.writer_unique (mem_located.mp hMem) hGet hAgain hWrites]

/-
  What defines the inputs of an operation is committed exactly
  if no pending operation writes them.
-/
theorem inputsCommitted_iff
    {op : Operation}
    (hSingle : SingleAssignment run.program)
    (hGet : run.program[i]? = some op) :
    run.inputsCommitted op = true ↔
      ∀ t ∈ op.reads, run.view.Defined t := by
  unfold Ledger.inputsCommitted
  rw [List.all_eq_true]
  refine forall₂_congr ?_
  intro t hReads
  rcases hSingle.exists_writer hGet hReads with
    ⟨j, writer, -, hWriter, hWrites⟩
  rw [producer_eq hSingle hWriter hWrites, Option.any_some]
  constructor
  · intro hRetired p hP hAgain
    rcases run.agrees.mem_pending.mp hP with ⟨hListed, hWaits⟩
    rw [hSingle.writer_unique hListed hWriter hAgain hWrites] at hWaits
    exact absurd hRetired (by simp [hWaits])
  · intro hDefined
    by_contra hWaits
    exact hDefined (j, writer)
      (run.agrees.mem_pending.mpr ⟨hWriter, by simpa using hWaits⟩) hWrites

theorem eligible_of_inputsCommitted
    {op : Operation}
    (hSingle : SingleAssignment run.program)
    (hMem : (i, op) ∈ run.view.pending)
    (hInputs : run.inputsCommitted op)
    (hOldest : op.resource = .compute → run.IsOldestCompute i) :
    run.view.Eligible i op where
  pending := hMem
  oldest := fun hCompute _ hP hResource =>
    (hOldest hCompute).le run.agrees.sorted hP hResource
  defined :=
    (inputsCommitted_iff hSingle (run.agrees.mem_pending.mp hMem).1).mp
      hInputs

------------------------------------------------------------
-- Standings
------------------------------------------------------------

section

variable (hSound : run.Sound task pins)
variable (hQueued : run.view.Queued task.program)
include hSound hQueued

/- The results of the operations of a lowered program are known. -/
theorem fetch_writes_yields
    {t : TensorId}
    (hMem : p ∈ run.view.pending)
    (hWrites : p.2.writes = some t) :
    Yields (run.bench.tensors.fetch t) task.Tolerates
      (fun _ => True) := by
  have hKnown :
      task.lowered → ∃ tensor, run.bench.tensors.get? t = some tensor := by
    intro hLowered
    have hGet := hQueued.listed p.1 p.2 hMem
    have hTyped := (hSound.lowered hLowered).program.typed
      (List.mem_of_getElem? hGet)
    exact hTyped.get?_mentions t (Operation.mem_mentions_of_writes hWrites)
  exact (Commit.fetch_yields hKnown).weaken (fun _ _ => trivial)

theorem reserved_yields
    {kind : MemoryKind}
    {ops : List (Nat × Operation)}
    (hSubset : ∀ p ∈ ops, p ∈ run.view.pending) :
    Yields (reserved run.bench.tensors kind ops) task.Tolerates
      (fun _ => True) := by
  induction ops with
  | nil => trivial
  | cons p ops ih =>
      have hRest := ih (fun q hQ => hSubset q (List.mem_cons_of_mem p hQ))
      unfold reserved
      cases hWrites : p.2.writes with
      | none => exact hRest
      | some t =>
          have hFetch := fetch_writes_yields hSound hQueued
            (hSubset p List.mem_cons_self) hWrites
          refine hFetch.bind ?_
          intro tensor _
          exact hRest.bind (fun _ _ => trivial)

theorem commitsCleanly_yields
    {overtaken : List (Nat × Operation)}
    (hSubset : ∀ q ∈ overtaken, q ∈ run.view.pending)
    (hMem : p ∈ run.view.pending) :
    Yields (run.commitsCleanly overtaken p.2) task.Tolerates
      (fun _ => True) := by
  unfold commitsCleanly
  split
  · trivial
  · cases hWrites : p.2.writes with
    | none => trivial
    | some t =>
        refine (fetch_writes_yields hSound hQueued hMem hWrites).bind ?_
        intro tensor _
        dsimp only
        split
        · trivial
        · split
          · trivial
          · exact (reserved_yields hSound hQueued hSubset).bind
              (fun _ _ => trivial)

end

/- An operation that is not blocked is eligible. -/
theorem standing_yields
    {oldest : Nat}
    {c : Nat × Operation}
    (hSingle : SingleAssignment task.program)
    (hSound : run.Sound task pins)
    (hQueued : run.view.Queued task.program)
    (hMem : c ∈ run.view.pending) :
    Yields (run.standing oldest c) task.Tolerates
      (fun s => s ≠ .blocked → run.view.Eligible c.1 c.2) := by
  have hBefore : ∀ q ∈ run.pendingBefore c.1, q ∈ run.view.pending :=
    fun q hQ => ((mem_takeWhile_place hQueued.sorted).mp hQ).1
  unfold standing
  dsimp only
  split
  case isTrue => exact fun hNe => absurd rfl hNe
  case isFalse hInputs =>
    rw [Decidable.not_not] at hInputs
    have hEligible :
        (c.2.resource = .compute → run.IsOldestCompute c.1) →
          run.view.Eligible c.1 c.2 :=
      eligible_of_inputsCommitted (hSound.program_eq ▸ hSingle) hMem hInputs
    split
    case isTrue hCompute =>
      split
      case isTrue => exact fun hNe => absurd rfl hNe
      case isFalse hOldest =>
        rw [Decidable.not_not] at hOldest
        have hAll := hEligible (fun _ => hOldest)
        split
        · exact fun _ => hAll
        · refine (commitsCleanly_yields hSound hQueued (by simp)
            hMem).bind ?_
          exact fun _ _ _ => hAll
    case isFalse hOther =>
      have hAll := hEligible (fun hCompute => absurd hCompute hOther)
      split
      · refine (commitsCleanly_yields hSound hQueued (by simp)
          hMem).bind ?_
        exact fun _ _ _ => hAll
      · refine (commitsCleanly_yields hSound hQueued hBefore
          hMem).bind ?_
        exact fun _ _ _ => hAll

/- The oldest pending operation is never blocked. -/
theorem standing_oldest
    {rest : List (Nat × Operation)}
    {s : Standing}
    (hSingle : SingleAssignment run.program)
    (hPending : run.pending = oldest :: rest)
    (hStanding : run.standing oldest.1 oldest = .ok s) :
    s ≠ .blocked := by
  have hSorted := run.agrees.sorted
  rw [hPending] at hSorted
  have hOldest : ∀ p ∈ run.pending, oldest.1 ≤ p.1 := by
    intro p hP
    rw [hPending] at hP
    rcases List.mem_cons.mp hP with rfl | hRest
    · exact Nat.le_refl _
    · exact Nat.le_of_lt ((List.pairwise_cons.mp hSorted).1 p hRest)
  have hGet : run.program[oldest.1]? = some oldest.2 :=
    (run.agrees.mem_pending.mp (hPending ▸ List.mem_cons_self)).1
  -- What the oldest operation reads is written before it.
  have hInputs : run.inputsCommitted oldest.2 := by
    refine (inputsCommitted_iff hSingle hGet).mpr ?_
    intro t hReads p hP hWrites
    rcases hSingle.exists_writer hGet hReads with
      ⟨j, writer, hBefore, hWriter, hWrote⟩
    have hSame : p.1 = j :=
      hSingle.writer_unique (run.agrees.mem_pending.mp hP).1 hWriter
        hWrites hWrote
    have hLe := hOldest p hP
    omega
  unfold standing at hStanding
  dsimp only at hStanding
  rw [if_neg (not_not.mpr hInputs)] at hStanding
  split at hStanding
  case isTrue hCompute =>
    have hOldest : run.IsOldestCompute oldest.1 := by
      unfold IsOldestCompute
      rw [hPending, List.find?_cons_of_pos (by simpa using hCompute)]
      rfl
    rw [if_neg (not_not.mpr hOldest), if_pos rfl] at hStanding
    cases hStanding
    simp [ready]
  case isFalse =>
    rw [if_pos rfl] at hStanding
    cases hClean : run.commitsCleanly [] oldest.2 with
    | error e =>
        rw [hClean] at hStanding
        cases hStanding
    | ok clean =>
        rw [hClean] at hStanding
        cases hStanding
        cases clean <;> simp [ready]

------------------------------------------------------------
-- Selection
------------------------------------------------------------

theorem mem_of_best?
    {cs : List Candidate}
    {c : Candidate}
    (hBest : best? cs = some c) :
    c ∈ cs := by
  induction cs generalizing c with
  | nil => cases hBest
  | cons d cs ih =>
      unfold best? at hBest
      split at hBest
      case h_1 =>
        cases hBest
        exact List.mem_cons_self
      case h_2 e hRest =>
        split at hBest
        · cases hBest
          exact List.mem_cons_of_mem d (ih hRest)
        · cases hBest
          exact List.mem_cons_self

theorem best?_eq_none
    {cs : List Candidate} :
    best? cs = none ↔ cs = [] := by
  cases cs with
  | nil => simp [best?]
  | cons c cs =>
      unfold best?
      split
      · simp
      · split <;> simp

/- A candidate is an operation that is ready. -/
theorem candidate?_eq_some
    {j : (Nat × Operation) × Standing}
    {c : Candidate}
    (hCandidate : candidate? j = some c) :
    j.1 = (c.place, c.operation) ∧ j.2 ≠ .blocked := by
  rcases j with ⟨⟨i, op⟩, s⟩
  cases s with
  | ready start backlog =>
      cases hCandidate
      exact ⟨rfl, by simp⟩
  | _ => cases hCandidate

/- What is neither ready nor deferred is blocked. -/
theorem eq_blocked
    {j : (Nat × Operation) × Standing}
    (hCandidate : candidate? j = none)
    (hDeferred : j.2 ≠ .deferred) :
    j.2 = .blocked := by
  rcases j with ⟨c, s⟩
  cases s with
  | blocked => rfl
  | deferred => exact absurd rfl hDeferred
  | ready start backlog => cases hCandidate

/-
  An operation is selected among those that are looked at and not
  blocked, and the selection fails if all of them are.
-/
theorem select_yields_of_standings
    {window : Nat}
    {E : CompileError → Prop}
    {P : Nat × Operation → Standing → Prop}
    (hEach :
      ∀ c ∈ run.pending.take window,
        Yields (run.standing oldest.1 c) E (P c))
    (hStuck :
      (∀ c ∈ run.pending.take window, P c .blocked) →
        ∀ detail, E (.scheduling .nothingReady detail)) :
    Yields (run.select window oldest) E
      (fun c => c ∈ run.pending.take window ∧ ∃ s, s ≠ .blocked ∧ P c s) := by
  unfold select
  refine (Yields.mapM hEach).bind ?_
  intro standings hStandings
  rcases List.forall₂_iff_zip.mp hStandings with ⟨hLength, hJudged⟩
  dsimp only
  split
  case h_1 c hBest =>
    rcases List.mem_filterMap.mp (mem_of_best? hBest) with
      ⟨j, hJ, hCandidate⟩
    rcases candidate?_eq_some hCandidate with ⟨hPlace, hStands⟩
    rw [← hPlace]
    exact ⟨(List.of_mem_zip hJ).1, j.2, hStands, hJudged hJ⟩
  case h_2 hBest =>
    split
    case h_1 j hFind =>
      have hDeferred : j.2 = .deferred := by
        simpa using List.find?_some hFind
      have hJ := List.mem_of_find?_eq_some hFind
      exact ⟨(List.of_mem_zip hJ).1, j.2, by simp [hDeferred], hJudged hJ⟩
    case h_2 hFind =>
      refine hStuck ?_ _
      intro c hC
      rw [← List.map_fst_zip hLength.le] at hC
      rcases List.mem_map.mp hC with ⟨j, hJ, rfl⟩
      have hBlocked : j.2 = .blocked :=
        eq_blocked
          (List.filterMap_eq_nil_iff.mp (best?_eq_none.mp hBest) j hJ)
          (by simpa using List.find?_eq_none.mp hFind j hJ)
      rw [← hBlocked]
      exact hJudged hJ

/-
  While operations are pending, one that may commit is found
  among those that are looked at.
-/
theorem select_yields
    {window : Nat}
    {rest : List (Nat × Operation)}
    (hSingle : SingleAssignment task.program)
    (hSound : run.Sound task pins)
    (hQueued : run.view.Queued task.program)
    (hPending : run.pending = oldest :: rest)
    (hWindow : 0 < window) :
    Yields (run.select window oldest) task.Tolerates
      (fun c => run.view.Eligible c.1 c.2 ∧
        c ∈ run.view.pending.take window) := by
  have hEach :
      ∀ c ∈ run.pending.take window,
        Yields (run.standing oldest.1 c) task.Tolerates
          (fun s => (s ≠ .blocked → run.view.Eligible c.1 c.2) ∧
            (c = oldest → s ≠ .blocked)) := by
    intro c hC
    have hMem : c ∈ run.view.pending := List.mem_of_mem_take hC
    have hYields :
        Yields (run.standing oldest.1 c) task.Tolerates
          (fun s => s ≠ .blocked → run.view.Eligible c.1 c.2) :=
      standing_yields hSingle hSound hQueued hMem
    cases hStanding : run.standing oldest.1 c with
    | error e =>
        rw [hStanding] at hYields
        exact hYields
    | ok s =>
        rw [hStanding] at hYields
        refine ⟨hYields, ?_⟩
        intro hOldest
        rw [hOldest] at hStanding
        exact standing_oldest (hSound.program_eq ▸ hSingle) hPending hStanding
  refine (select_yields_of_standings hEach ?_).weaken ?_
  · -- The oldest operation is looked at, and it is not blocked.
    intro hBlocked
    have hVisible : oldest ∈ run.pending.take window := by
      rw [hPending, List.take_cons hWindow]
      exact List.mem_cons_self
    exact absurd rfl ((hBlocked oldest hVisible).2 rfl)
  · intro c hSelected
    rcases hSelected with ⟨hVisible, s, hStands, hEligible, -⟩
    exact ⟨hEligible hStands, hVisible⟩

end Run

end Systolic
