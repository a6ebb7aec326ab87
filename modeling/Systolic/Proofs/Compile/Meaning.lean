import Systolic.Proofs.Compile.Stages
import Systolic.Proofs.Lowering.Meaning
import Systolic.Proofs.Schedule.Refine

/-
  This file proves that a schedule computes what its program
  computes, whatever the array computes and whatever DRAM holds
  at first.

  Key theorems include:
    * `Compiles.replays`
    * `compile_preserves_meaning`
-/

namespace Systolic

variable {ν α : Type} [DecidableEq ν]
variable {net : Network ν} {outputs : List String} {m : Machine}
variable {lookahead : Nat} {nodes roots : List ν}
variable {s : Lowering ν} {run : Run}

namespace Compiles

/- The tensors of a program grow while it is scheduled. -/
theorem tensors_extend
    (hStages : Compiles net outputs m lookahead nodes roots s run) :
    s.bench.tensors.Extends run.bench.tensors := by
  have hSingle := hStages.scheduled.single
  exact hStages.scheduled.steps_view.extends hSingle
    (View.legal_start hSingle s.bench)

theorem wellFormed
    (hStages : Compiles net outputs m lookahead nodes roots s run) :
    WellFormed s.bench.machine.arraySize run.bench.tensors s.program :=
  hStages.sound.program.extend hStages.tensors_extend

section

variable (hStages : Compiles net outputs m lookahead nodes roots s run)
include hStages

/- The schedule can be replayed. -/
theorem replays
    (K : Kernel α)
    (memory : Contents α)
    (env : TensorId → List α) :
    run.view.Replays K run.bench.tensors.depth
      ((Compiled.ofBench run.bench run.schedule).homes memory) env
      memory := by
  have hExtends := hStages.tensors_extend
  refine hStages.scheduled.steps_view.replays hStages.wellFormed ?_ ?_ ?_
    (.refl _)
  · constructor
    case form => exact hStages.sound.program
    case laid => exact hStages.sound.laid
    case sizes =>
      intro t tensor hGet
      rcases hExtends t tensor hGet with ⟨grown, hGrown, hGrows⟩
      simp only [TensorTable.depth, hGrown, hGrows.layout_eq]
  · intro t tensor hGet
    exact (hStages.sound.fresh t tensor hGet).spilled_eq
  · intro t tensor l hGet hHome
    rcases hExtends t tensor hGet with ⟨grown, hGrown, hGrows⟩
    have hPlace :
        (Compiled.ofBench run.bench run.schedule).atlas.dram? (·.home) t =
          some (tensor.span l) := by
      refine Atlas.dram?_eq_some.mpr ⟨grown, l, hGrown, ?_, ?_⟩
      · rw [hGrows.home_eq]
        exact hHome
      · simp only [Tensor.span, hGrows.layout_eq]
    rw [Compiled.homes, hPlace]

/- Every operation of the program is committed. -/
theorem mem_done
    {op : Operation}
    (hMem : op ∈ s.program) :
    op ∈ run.view.done := by
  have hLegal := hStages.scheduled.legal
  rcases List.mem_iff_getElem?.mp hMem with ⟨i, hGet⟩
  rcases hLegal.committed i op hGet with hWaits | hDone
  · rw [hStages.scheduled.pending] at hWaits
    cases hWaits
  · exact hDone

/- What a program stores is left where the host looks for it. -/
theorem read_exported
    {t : TensorId}
    {K : Kernel α}
    {depth : TensorId → Nat}
    {home env : TensorId → List α}
    {final : Contents α}
    (hMirrors :
      run.view.Mirrors home
        ((K.semantics depth).exec home run.view.done env) final)
    (hStore : .store t ∈ s.program) :
    ∃ place, run.view.atlas.dram? (·.exported) t = some place ∧
      final.read place =
        (K.semantics depth).exec home s.program env t := by
  have hForm := hStages.wellFormed
  have hTyped := hForm.typed hStore
  cases hTyped with
  | @store _ a hTensor hExported =>
      rcases Option.isSome_iff_exists.mp hExported with ⟨l, hL⟩
      refine ⟨a.span l, Atlas.dram?_eq_some.mpr ⟨a, l, hTensor.1, hL, rfl⟩,
        ?_⟩
      rcases hMirrors.dram.exported t a l hTensor.1 hL
          (hStages.mem_done hStore) with
        ⟨⟨hDefined, -⟩, hRead⟩
      have hWritten : t ∈ written s.program :=
        hForm.singleAssignment.mem_written hStore (List.mem_singleton.mpr rfl)
      have hFollows :=
        hStages.scheduled.steps_view.follows (K.semantics depth) home env hForm
      rw [hRead]
      exact hFollows.settled t a hTensor hWritten hDefined

end

end Compiles

/-
  Scheduling preserves meaning. For any kernel and any contents
  of the memories, the committed operations can be replayed, and
  leave where the host looks for a requested node the value that
  its tensor has after the program, in an environment without
  memories in which nothing is moved or reordered.
-/
theorem compile_preserves_meaning
    (net : Network ν)
    (outputs : List String)
    {m : Machine}
    {lookahead : Nat}
    {c : Compiled}
    (hCompile : compile net outputs m lookahead = .ok c)
    (K : Kernel α)
    (memory : Contents α)
    (env : TensorId → List α) :
    ∃ (nodes roots : List ν) (s : Lowering ν) (final : Contents α),
      net.order (distinct outputs) = .ok nodes ∧
      net.roots (distinct outputs) = .ok roots ∧
      (nodes.forM (Lower.node { network := net, nodes
                                outputs := roots }))
        (Lowering.start (.start m c.layout)) = .ok () s ∧
      lowerNetwork net (distinct outputs) (.start m c.layout) =
        .ok (s.program, s.bench) ∧
      c.replay K memory = some final ∧
      ∀ n ∈ roots, ∃ t place,
        s.tensor? n = some t ∧
        c.atlas.dram? (·.exported) t = some place ∧
        final.read place =
          (K.semantics c.tensors.depth).exec (c.homes memory) s.program
            env t := by
  rcases compiles_of_compile hCompile with
    ⟨nodes, roots, s, run, hStages, rfl⟩
  have hLayout : run.bench.layout = s.bench.layout :=
    hStages.scheduled.sound.layout_eq
  have hDone :
      (Compiled.ofBench run.bench run.schedule).schedule.ops.map
        (·.operation) = run.view.done :=
    List.map_reverse
  rcases hStages.replays K memory env with ⟨final, hReplay, hMirrors⟩
  refine ⟨nodes, roots, s, final, hStages.order, hStages.requested,
    ?_, ?_, ?_, ?_⟩
  · rw [Compiled.ofBench, hLayout]
    exact hStages.lowering
  · rw [Compiled.ofBench, hLayout]
    exact hStages.program
  · rw [Compiled.replay, hDone]
    exact hReplay
  · intro n hRoot
    rcases net.order_ordered hStages.order with
      ⟨roots', hRoots', hOrdered, hAmong⟩
    cases hRoots'.symm.trans hStages.requested
    rcases hStages.lowersAll.exists_store hOrdered hRoot
        (hAmong n hRoot) with
      ⟨t, hTensor, hStore⟩
    rcases hStages.read_exported hMirrors hStore with
      ⟨place, hPlace, hRead⟩
    exact ⟨t, place, hTensor, hPlace, hRead⟩

/- Integers as vectors, with the usual sum and rectifier. -/
def integers : Kernel Int where
  product := fun _ _ _ _ _ => 0
  sum := fun _ xs ys i => xs.getD i 0 + ys.getD i 0
  activate := fun activation _ xs i =>
    match activation with
    | .identity => xs.getD i 0
    | .relu => max 0 (xs.getD i 0)

/-
  The rectified inputs -3 and 4 are spilled and reloaded, and
  their sum is where the host looks for it.
-/
theorem compile_preserves_meaning_rectifiedSum :
    ∃ c final place,
      compile rectifiedSum ["sum"] oneVector 8 = .ok c ∧
      c.schedule.spills = 2 ∧ c.schedule.reloads = 2 ∧
      c.replay integers (fun _ a => 7 * a - 3) = some final ∧
      c.atlas.dram? (·.exported) ⟨7⟩ = some place ∧
      final.read place = [4] := by
  let memory : Contents Int := fun _ a => 7 * a - 3
  have hCounts :
      (compile rectifiedSum ["sum"] oneVector 8).toOption.map
        (fun c => (c.schedule.spills, c.schedule.reloads)) =
      some (2, 2) := by
    decide +kernel
  have hOrder :
      rectifiedSum.order (distinct ["sum"]) = .ok [0, 2, 1, 3, 4] := by
    decide +kernel
  have hRoots : rectifiedSum.roots (distinct ["sum"]) = .ok [4] := by
    decide +kernel
  have hTensors :
      (compile rectifiedSum ["sum"] oneVector 8).toOption.bind
        (fun c =>
          match ([0, 2, 1, 3, 4].forM
              (Lower.node { network := rectifiedSum
                            nodes := [0, 2, 1, 3, 4], outputs := [4] }))
              (Lowering.start (.start oneVector c.layout)) with
          | .ok _ s => s.tensor? 4
          | .error _ _ => none) =
      some ⟨7⟩ := by
    decide +kernel
  have hValues :
      (compile rectifiedSum ["sum"] oneVector 8).toOption.bind
        (fun c =>
          (lowerNetwork rectifiedSum (distinct ["sum"])
            (.start oneVector c.layout)).toOption.map
            (fun lowered =>
              (integers.semantics c.tensors.depth).exec (c.homes memory)
                lowered.1 (fun _ => []) ⟨7⟩)) =
      some [4] := by
    decide +kernel
  cases hCompile : compile rectifiedSum ["sum"] oneVector 8 with
  | error e =>
      rw [hCompile] at hCounts
      cases hCounts
  | ok c =>
      rcases compile_preserves_meaning rectifiedSum ["sum"] hCompile
          integers memory (fun _ => []) with
        ⟨nodes, roots, s, final, hNodes, hRoots', hLowering, hLower,
          hReplay, hRead⟩
      cases hOrder.symm.trans hNodes
      cases hRoots.symm.trans hRoots'
      rcases hRead 4 (List.mem_singleton.mpr rfl) with
        ⟨t, place, hTensor, hPlace, hFinal⟩
      rw [hCompile] at hCounts hTensors hValues
      simp only [Except.toOption, Option.bind_some, hLowering, hLower,
        Option.map_some, hTensor, Option.some.injEq, Prod.mk.injEq]
        at hCounts hTensors hValues
      subst hTensors
      exact ⟨c, final, place, rfl, hCounts.1, hCounts.2, hReplay, hPlace,
        hFinal.trans hValues⟩

end Systolic
