import Systolic.Proofs.Program.Semantics
import Systolic.Proofs.Schedule.Legal

/-
  This file proves that the order in which a scheduler commits
  operations does not matter: over an environment of tensors, the
  committed operations compute what the program computes. Loads
  and stores overtake other operations, but an operand is defined
  before it is read, and the array keeps its order.

  Key definitions include:
    * `View.Follows`

  Key theorems include:
    * `View.Follows.commit`
    * `View.Follows.step`
    * `View.Steps.follows`
-/

namespace Systolic

variable {V : Type}

namespace View

/-
  The committed operations keep up with a program. A tensor of
  the scratchpad that is defined has its last value. Accumulator
  tensors have the values that the next operation of the array
  finds in the program.
-/
structure Follows
    (S : Semantics V)
    (home env : TensorId → V)
    (table : TensorTable)
    (program : List Operation)
    (v : View) : Prop where
  settled :
    ∀ t tensor, table.Holds t .scratchpad tensor →
      t ∈ written program → v.Defined t →
        S.exec home v.done env t = S.exec home program env t
  current :
    ∀ i op, (i, op) ∈ v.pending → op.resource = .compute →
      (∀ p ∈ v.pending, p.2.resource = .compute → i ≤ p.1) →
        ∀ t tensor, table.Holds t .accumulator tensor →
          S.exec home v.done env t =
            S.exec home (program.take i) env t

section Reordering

variable {S : Semantics V} {home env : TensorId → V}
variable {n : Nat} {table : TensorTable} {program : List Operation}
variable {v v' : View} {i : Nat} {op : Operation} {bs : List Binding}

section

variable (hForm : WellFormed n table program) (hLegal : v.Legal program)
variable (hFollows : v.Follows S home env table program)
variable (hCommit : v.CanCommit i op bs)
include hForm hLegal hFollows hCommit

/- What an operation reads has the value that the program gives it. -/
theorem Follows.reads
    {t : TensorId}
    (hRead : t ∈ op.reads) :
    S.exec home v.done env t = S.exec home (program.take i) env t := by
  have hGet := hLegal.listed i op hCommit.pending
  have hAdmits := hForm i op hGet
  have hWritten := hAdmits.reads_written t hRead
  rcases mem_written_take.mp hWritten with
    ⟨j, writer, hBefore, hGet', hWrites⟩
  have hTyped := (hForm j writer hGet').typed
  rcases hTyped.get?_mentions t
      (Operation.mem_mentions_of_writes hWrites) with
    ⟨tensor, hEntry⟩
  cases hKind : tensor.kind with
  | scratchpad =>
      have hHolds : table.Holds t .scratchpad tensor := ⟨hEntry, hKind⟩
      have hAll : t ∈ written program :=
        List.mem_filterMap.mpr
          ⟨writer, List.mem_of_getElem? hGet', hWrites⟩
      have hDefined : v.Defined t := by
        rcases hCommit.reads t hRead with ⟨b, hPresent, rfl⟩
        exact hLegal.defined b hPresent
      rw [hFollows.settled t tensor hHolds hAll hDefined]
      exact S.exec_take_of_scratchpad home hForm hHolds hGet' hWrites
        hBefore env
  | accumulator =>
      have hHolds : table.Holds t .accumulator tensor := ⟨hEntry, hKind⟩
      have hCompute := hAdmits.typed.compute_of_reads hHolds hRead
      exact hFollows.current i op hCommit.pending hCompute
        (hCommit.oldest hCompute) t tensor hHolds

/- A committed operation computes what it computes in the program. -/
theorem Follows.target
    {t : TensorId}
    (hTarget : op.target = some t) :
    S.exec home (v.done ++ [op]) env t =
      S.exec home (program.take (i + 1)) env t := by
  rw [S.exec_snoc,
    S.exec_take_succ home (hLegal.listed i op hCommit.pending)]
  apply S.step_congr home _ hTarget
  intro u hU
  exact hFollows.reads hForm hLegal hCommit hU

/- An operation commits, on the array only the oldest one. -/
theorem Follows.commit :
    (v.committed i op bs).Follows S home env table program := by
  have hMem := hCommit.pending
  have hOldest := hCommit.oldest
  have hGet := hLegal.listed i op hMem
  have hTyped := (hForm i op hGet).typed
  have hRest :
      ∀ p, p ∈ (v.committed i op bs).pending ↔
        p ∈ v.pending ∧ p.1 ≠ i :=
    fun p => mem_eraseP_place hLegal.sorted
  have hHere :
      ∀ t, op.target = some t →
        S.exec home (v.committed i op bs).done env t =
          S.exec home (program.take (i + 1)) env t :=
    fun t => hFollows.target hForm hLegal hCommit
  have hElsewhere :
      ∀ t, op.target ≠ some t →
        S.exec home (v.committed i op bs).done env t =
          S.exec home v.done env t := by
    intro t hTarget
    rw [committed, S.exec_snoc]
    exact S.step_of_target_ne home hTarget _
  constructor
  case settled =>
    intro t tensor hHolds hWritten hDefined
    by_cases hTarget : op.target = some t
    · have hWrites := hTyped.writes_of_target hHolds hTarget
      rw [hHere t hTarget]
      exact (S.exec_take_of_scratchpad home hForm hHolds hGet hWrites
        (Nat.lt_succ_self i) env).symm
    · rw [hElsewhere t hTarget]
      apply hFollows.settled t tensor hHolds hWritten
      intro p hP hWrites
      by_cases hSame : p.1 = i
      · have hBoth := (hLegal.listed p.1 p.2 hP).symm.trans (hSame ▸ hGet)
        rw [Option.some.inj hBoth] at hWrites
        exact hTarget (hTyped.target_of_writes hWrites)
      · exact hDefined p ((hRest p).mpr ⟨hP, hSame⟩) hWrites
  case current =>
    intro k next hNext hCompute hFirst t tensor hHolds
    rcases (hRest _).mp hNext with ⟨hWaits, hNe⟩
    by_cases hArray : op.resource = .compute
    · -- Between the two operations nothing runs on the array.
      have hLater : i < k :=
        Nat.lt_of_le_of_ne (hOldest hArray _ hWaits hCompute) (Ne.symm hNe)
      have hIdle :
          ∀ j o, i + 1 ≤ j → j < k → program[j]? = some o →
            o.target ≠ some t := by
        intro j o hFrom hTo hGet' hTarget
        have hRuns := (hForm j o hGet').typed.compute_of_target hHolds
          hTarget
        have hStill := hLegal.ordered i op j o hMem hArray hGet' hRuns
          (by omega)
        have hLe := hFirst (j, o) ((hRest _).mpr ⟨hStill, by
          simp only
          omega⟩) hRuns
        simp only at hLe
        omega
      rw [S.exec_take_of_idle home hLater hIdle env]
      by_cases hTarget : op.target = some t
      · exact hHere t hTarget
      · rw [hElsewhere t hTarget,
          hFollows.current i op hMem hArray (hOldest hArray) t tensor
            hHolds,
          S.exec_take_succ home hGet,
          S.step_of_target_ne home hTarget]
    · have hTarget : op.target ≠ some t :=
        fun hTarget => hArray (hTyped.compute_of_target hHolds hTarget)
      rw [hElsewhere t hTarget]
      apply hFollows.current k next hWaits hCompute _ t tensor hHolds
      intro p hP hRuns
      by_cases hSame : p.1 = i
      · have hBoth := (hLegal.listed p.1 p.2 hP).symm.trans (hSame ▸ hGet)
        rw [Option.some.inj hBoth] at hRuns
        exact absurd hRuns hArray
      · exact hFirst p ((hRest p).mpr ⟨hP, hSame⟩) hRuns

end

/- What is moved off the chip or back is computed already. -/
theorem Follows.move
    (hFollows : v.Follows S home env table program)
    (hPending : v'.pending = v.pending)
    (hDone :
      S.exec home v'.done env = S.exec home v.done env) :
    v'.Follows S home env table program := by
  constructor
  case settled =>
    intro t tensor hHolds hWritten hDefined
    rw [hDone]
    exact hFollows.settled t tensor hHolds hWritten
      ((defined_congr hPending t).mp hDefined)
  case current =>
    rw [hPending, hDone]
    exact hFollows.current

theorem Follows.step
    (hForm : WellFormed n table program)
    (hLegal : v.Legal program)
    (hFollows : v.Follows S home env table program)
    (hStep : v.Step v') :
    v'.Follows S home env table program := by
  cases hStep with
  | leave hLeaves =>
      cases hLeaves with
      | copied => exact hFollows.move rfl rfl
      | stored => exact hFollows.move rfl (S.exec_snoc home _ _ env)
  | reload => exact hFollows.move rfl (S.exec_snoc home _ _ env)
  | commit hCommit => exact hFollows.commit hForm hLegal hCommit
  | drop => exact hFollows.move rfl rfl

/- Before the first step nothing is defined. -/
theorem follows_start
    (S : Semantics V)
    (home env : TensorId → V)
    (hForm : WellFormed n table program)
    (bench : Workbench) :
    (start bench program).Follows S home env table program := by
  constructor
  case settled =>
    intro t tensor _ hWritten hDefined
    rcases List.mem_filterMap.mp hWritten with ⟨op, hMem, hWrites⟩
    rcases List.mem_iff_getElem?.mp hMem with ⟨i, hGet⟩
    exact absurd hWrites (hDefined (i, op) (mem_pending_start.mpr hGet))
  case current =>
    intro i op hMem hCompute hFirst t tensor hHolds
    have hIdle :
        ∀ j o, 0 ≤ j → j < i → program[j]? = some o →
          o.target ≠ some t := by
      intro j o _ hTo hGet hTarget
      have hRuns := (hForm j o hGet).typed.compute_of_target hHolds
        hTarget
      have hLe := hFirst (j, o) (mem_pending_start.mpr hGet) hRuns
      simp only at hLe
      omega
    have hTake := S.exec_take_of_idle home (Nat.zero_le i) hIdle env
    exact hTake.symm

/- All that is committed follows the program. -/
theorem Steps.follows
    {bench : Workbench}
    (S : Semantics V)
    (home env : TensorId → V)
    (hForm : WellFormed n table program)
    (hSteps : (start bench program).Steps v) :
    v.Follows S home env table program := by
  have hSingle := hForm.singleAssignment
  induction hSteps with
  | refl => exact follows_start S home env hForm bench
  | tail hFirst hStep ih =>
      have hLegal := (legal_start hSingle bench).steps hSingle hFirst
      exact ih.step hForm hLegal hStep

end Reordering

end View

end Systolic
