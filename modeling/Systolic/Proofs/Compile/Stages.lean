import Systolic.Output.Compiled
import Systolic.Proofs.Graph.Denotation
import Systolic.Proofs.Lowering.Steady
import Systolic.Proofs.Schedule.Program

/-
  This file puts the stages of a compilation together: a machine
  is accepted, the nodes of a network are ordered and lowered,
  and the program is scheduled. A compilation succeeds in all of
  them, or it fails for a good reason.

  Key definitions include:
    * `Workbench.Untouched`
    * `Compiles`

  Key theorems include:
    * `Lowering.LowersAll.untouched`
    * `compile_cases`
    * `compile_fails_admissibly`
-/

namespace Systolic

variable {ν : Type}

------------------------------------------------------------
-- Lowering and the Workbench
------------------------------------------------------------

/- Only the tensors and DRAM of a workbench are different. -/
structure Workbench.Untouched (w w' : Workbench) : Prop where
  machine_eq : w'.machine = w.machine
  layout_eq : w'.layout = w.layout
  memory_eq : w'.memory = w.memory

namespace Workbench.Untouched

variable {w w' w'' : Workbench}

theorem refl (w : Workbench) : w.Untouched w :=
  ⟨rfl, rfl, rfl⟩

theorem trans
    (hFirst : w.Untouched w')
    (hSecond : w'.Untouched w'') :
    w.Untouched w'' where
  machine_eq := hSecond.machine_eq.trans hFirst.machine_eq
  layout_eq := hSecond.layout_eq.trans hFirst.layout_eq
  memory_eq := hSecond.memory_eq.trans hFirst.memory_eq

end Workbench.Untouched

namespace Lowering

variable [DecidableEq ν]
variable {p : Plan ν} {s s' : Lowering ν}

/- Lowering leaves the machine and the memories on the chip. -/
theorem LowersAll.untouched
    {nodes : List ν}
    (hAll : s.LowersAll p nodes s') :
    s.bench.Untouched s'.bench := by
  refine hAll.steady ?_ (.refl _)
  constructor
  case source => exact fun _ _ _ _ _ _ _ _ _ _ _ hI => hI.trans ⟨rfl, rfl, rfl⟩
  case grow => exact fun _ _ _ _ _ _ _ _ _ _ hI => hI.trans ⟨rfl, rfl, rfl⟩
  case exported => exact fun _ _ _ _ _ hI => hI.trans ⟨rfl, rfl, rfl⟩

end Lowering

------------------------------------------------------------
-- Stages
------------------------------------------------------------

/- The task of a program that was lowered for a machine. -/
def Task.ofLowering
    (m : Machine)
    (s : Lowering ν)
    (lookahead : Nat) : Task where
  machine := m
  layout := s.bench.layout
  capacity := fun kind => m.depth kind.store
  program := s.program
  window := max lookahead 1
  lowered := True

/- A lowered program is ready to be scheduled. -/
theorem Lowering.Sound.ready
    [DecidableEq ν]
    {p : Plan ν}
    {s : Lowering ν}
    {m : Machine}
    {layout : WordLayout}
    (hCheck : m.check = .ok layout)
    (hSound : s.Sound p)
    (hSame : (Workbench.start m layout).Untouched s.bench)
    (lookahead : Nat) :
    s.bench.Fresh (.ofLowering m s lookahead) := by
  have hAccepted := Machine.accepted_of_check hCheck
  have hMachine : s.bench.machine = m := hSame.machine_eq
  have hLayout : s.bench.layout = layout := hSame.layout_eq
  constructor
  case machine_eq => exact hMachine
  case layout_eq => rfl
  case memory =>
    rw [hSame.memory_eq]
    exact Memory.sound_empty m.localDepth m.accumulatorDepth
  case capacity =>
    intro kind
    rw [hSame.memory_eq]
    cases kind <;> rfl
  case history =>
    rw [hSame.memory_eq]
    rfl
  case lowered =>
    intro _
    constructor
    case accepted =>
      change m.Accepted s.bench.layout
      rw [hLayout]
      exact hAccepted
    case capacity => exact fun _ => rfl
    case program =>
      have hForm := hSound.program
      rw [hMachine] at hForm
      exact hForm
    case laid => exact hSound.laid
    case proper =>
      exact fun t tensor hGet => (hSound.fresh t tensor hGet).proper

variable [DecidableEq ν]

/- The stages of a compilation that succeeds. -/
structure Compiles
    (net : Network ν)
    (outputs : List String)
    (m : Machine)
    (lookahead : Nat)
    (nodes roots : List ν)
    (s : Lowering ν)
    (run : Run) : Prop
    extends Lowered net outputs nodes (.start m s.bench.layout) roots s where
  accepted :
    Workbench.ofMachine m = .ok (.start m s.bench.layout)
  order : net.order outputs = .ok nodes
  program :
    lowerNetwork net outputs (.start m s.bench.layout) =
      .ok (s.program, s.bench)
  scheduled : s.bench.Schedules (.ofLowering m s lookahead) run

/- A compilation fails for a good reason or passes all stages. -/
theorem compile_cases
    (net : Network ν)
    (outputs : List String)
    (m : Machine)
    (lookahead : Nat) :
    (∃ e, compile net outputs m lookahead = .error e ∧
      e.Admissible m) ∨
    ∃ nodes roots s run,
      Compiles net (distinct outputs) m lookahead nodes roots s run ∧
      compile net outputs m lookahead =
        .ok (.ofBench run.bench run.schedule) := by
  unfold compile
  cases hBench : Workbench.ofMachine m with
  | error e =>
      left
      refine ⟨e, rfl, ?_⟩
      unfold Workbench.ofMachine at hBench
      split at hBench
      · cases hBench
        exact .machine _
      · cases hBench
  | ok bench =>
      rcases Workbench.ofMachine_ok hBench with
        ⟨hSize, layout, hCheck, rfl⟩
      simp only [lowerNetwork]
      cases hOrder : net.order (distinct outputs) with
      | error e => exact .inl ⟨.graph e, rfl, .graph e⟩
      | ok nodes =>
          rcases lowerNodes_cases net (distinct outputs) nodes layout
              hSize with
            ⟨e, hError, hAdmissible⟩ |
              ⟨roots, s, hLowered, hOk⟩
          · simp only [hError]
            exact .inl ⟨e, rfl, hAdmissible⟩
          · simp only [hOk]
            have hSame := hLowered.lowersAll.untouched
            have hFresh := hLowered.sound.ready hCheck hSame lookahead
            have hLayout : s.bench.layout = layout := hSame.layout_eq
            have hSchedule := Workbench.schedule_ensures hFresh rfl
            cases hResult :
                Workbench.schedule s.program lookahead s.bench with
            | error e bench' =>
                have hTolerated := hSchedule.of_error hResult
                exact .inl ⟨e, rfl, hTolerated trivial⟩
            | ok schedule bench' =>
                rcases hSchedule.of_ok hResult with
                  ⟨run, hScheduled, rfl, rfl⟩
                refine .inr ⟨nodes, roots, s, run, ?_, rfl⟩
                constructor
                case toLowered =>
                  rw [hLayout]
                  exact hLowered
                case accepted =>
                  rw [hLayout]
                  exact hBench
                case order => exact hOrder
                case program =>
                  rw [hLayout]
                  simp only [lowerNetwork, hOrder, hOk]
                case scheduled => exact hScheduled

section

variable {net : Network ν} {outputs : List String} {m : Machine}
variable {lookahead : Nat} {c : Compiled} {nodes roots : List ν}

/- A compilation that succeeds passes all stages. -/
theorem compiles_of_compile
    (hCompile : compile net outputs m lookahead = .ok c) :
    ∃ nodes roots s run,
      Compiles net (distinct outputs) m lookahead nodes roots s run ∧
        c = .ofBench run.bench run.schedule := by
  rcases compile_cases net outputs m lookahead with
    ⟨e, hFails, -⟩ | ⟨nodes, roots, s, run, hStages, hOk⟩
  · cases hFails.symm.trans hCompile
  · cases hOk.symm.trans hCompile
    exact ⟨nodes, roots, s, run, hStages, rfl⟩

------------------------------------------------------------
-- Numbers of Tensors
------------------------------------------------------------

/- No step of a scheduler adds a tensor. -/
theorem View.Step.size_tensors
    {v v' : View}
    (hStep : v.Step v') :
    v'.tensors.size = v.tensors.size := by
  cases hStep with
  | leave hLeaves =>
      cases hLeaves with
      | copied => rfl
      | stored => exact TensorTable.size_modify _ _ _
  | reload => rfl
  | commit => rfl
  | drop => rfl

/- A compilation has two tensors at most for each node in its order. -/
theorem Compiles.size_tensors_le
    {s : Lowering ν}
    {run : Run}
    (hStages : Compiles net outputs m lookahead nodes roots s run) :
    run.bench.tensors.size ≤ 2 * nodes.length := by
  have hLowered : s.bench.tensors.size ≤ 0 + 2 * nodes.length :=
    hStages.lowersAll.size_tensors_le
  have hScheduled :
      ∀ {v : View},
        (View.start s.bench s.program).Steps v →
          v.tensors.size = s.bench.tensors.size := by
    intro v hSteps
    induction hSteps with
    | refl => rfl
    | tail _ hStep ih => exact hStep.size_tensors.trans ih
  have hSame : run.bench.tensors.size = s.bench.tensors.size :=
    hScheduled hStages.scheduled.steps_view
  omega

/-
  The numbers of tensors have 32 bits if no more than 2^31 nodes
  are computed.
-/
theorem compile_numbers_lt
    {t : TensorId}
    {tensor : Tensor}
    (hCompile : compile net outputs m lookahead = .ok c)
    (hOrder : net.order (distinct outputs) = .ok nodes)
    (hCount : nodes.length ≤ 2 ^ 31)
    (hGet : c.tensors.get? t = some tensor) :
    t.index < UInt32.size := by
  rcases compiles_of_compile hCompile with
    ⟨nodes', roots, s, run, hStages, rfl⟩
  cases hOrder.symm.trans hStages.order
  have hSize := hStages.size_tensors_le
  have hInside := (Array.getElem?_eq_some_iff.mp hGet).1
  change t.index < run.bench.tensors.size at hInside
  have hLimit : UInt32.size = 2 * 2 ^ 31 := rfl
  omega

end

------------------------------------------------------------
-- Failures
------------------------------------------------------------

/-
  A compilation fails with a fault of the graph or the machine,
  with a tensor that fits no memory on the chip, or with a region
  of DRAM that does not fit. The program that it lowers is always
  scheduled, its memories never contradict themselves, and every
  operand fits its field.
-/
theorem compile_fails_admissibly
    (net : Network ν)
    (outputs : List String)
    (m : Machine)
    (lookahead : Nat)
    {e : CompileError}
    (hError : compile net outputs m lookahead = .error e) :
    (∃ fault, e = .graph fault) ∨
    (∃ fault, e = .machine fault) ∨
    (∃ name kind requested capacity,
      e = .memory (.outOfMemory name kind requested capacity)) ∨
    ∃ fault, e = .encoding fault ∧ fault.field = "address" ∧
      ((∃ overflow, fault = .beyondCounts overflow ∧
          Count.limit ≤ overflow.address + overflow.size) ∨
        ∃ subject location size,
          fault = .beyondBank subject location size
            (m.bankDepth location.bank) ∧
          m.bankDepth location.bank < location.address + size) := by
  rcases compile_cases net outputs m lookahead with
    ⟨e', hFails, hAdmissible⟩ | ⟨_, _, _, _, _, hOk⟩
  · cases hFails.symm.trans hError
    cases hAdmissible with
    | graph fault => exact .inl ⟨fault, rfl⟩
    | machine fault => exact .inr (.inl ⟨fault, rfl⟩)
    | outOfMemory name kind requested capacity =>
        exact .inr (.inr (.inl ⟨name, kind, requested, capacity, rfl⟩))
    | beyondCounts overflow hOverflow =>
        right; right; right
        exact ⟨_, rfl, rfl, .inl ⟨overflow, rfl, hOverflow⟩⟩
    | beyondBank subject location size hBeyond =>
        right; right; right
        exact ⟨_, rfl, rfl, .inr ⟨subject, location, size, rfl, hBeyond⟩⟩
  · cases hOk.symm.trans hError

/- A residual block whose results do not fit the first bank. -/
theorem compile_fails_admissibly_smallBank :
    ∃ fault,
      compile residualBlock ["rectified", "sum"]
          { Machine.standard with
            arraySize := 2, localDepth := 6, accumulatorDepth := 2
            dram0Depth := 5 } 8 =
        .error (.encoding fault) ∧
      fault.field = "address" := by
  let m : Machine :=
    { Machine.standard with
      arraySize := 2, localDepth := 6, accumulatorDepth := 2
      dram0Depth := 5 }
  have hError :
      compile residualBlock ["rectified", "sum"] m 8 =
        .error (.encoding (.beyondBank "Store(sum)"
          { bank := .dram0, address := 4 } 2 5)) := by
    decide +kernel
  rcases compile_fails_admissibly residualBlock ["rectified", "sum"] m 8
      hError with
    ⟨fault, hGraph⟩ | ⟨fault, hMachine⟩ |
      ⟨name, kind, requested, capacity, hMemory⟩ |
      ⟨fault, hEncoding, hField, -⟩
  · cases hGraph
  · cases hMachine
  · cases hMemory
  · cases hEncoding
    exact ⟨_, hError, hField⟩

end Systolic
