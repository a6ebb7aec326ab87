import Systolic.Proofs.Compile.Meaning
import Systolic.Proofs.Lowering.Discipline
import Systolic.Proofs.Lowering.Renumber
import Systolic.Proofs.Schedule.Accumulators

/-
  This file proves on how little of a machine some results of a
  compilation depend. The program and its tensors follow from the
  size of the array, and with the depth of the accumulator memory
  they decide where accumulator tensors are placed. Neither local
  memory nor lookahead matter, however differently they make the
  scheduler move tensors around.

  Key theorems include:
    * `lowerNetwork_alike`
    * `compile_places_alike`
-/

namespace Systolic

variable {ν : Type} [DecidableEq ν]

/- The workbench of one machine, turned into that of another. -/
def Workbench.Recast.toMachine
    (m : Machine)
    (layout : WordLayout) : Recast where
  machine := fun old => { m with arraySize := old.arraySize }
  layout := fun _ => layout
  memory := fun _ => .empty m.localDepth m.accumulatorDepth
  arraySize_eq := fun _ => rfl

theorem Workbench.recast_start
    {m m' : Machine}
    (hArray : m'.arraySize = m.arraySize)
    (layout layout' : WordLayout) :
    (start m layout).recast (.toMachine m' layout') = start m' layout' := by
  rcases m' with ⟨⟩
  cases hArray
  rfl

/- Machines with arrays of one size are given the same program. -/
theorem lowerNetwork_alike
    {net : Network ν}
    {outputs : List String}
    {m m' : Machine}
    {layout layout' : WordLayout}
    {program program' : List Operation}
    {bench bench' : Workbench}
    (hArray : m'.arraySize = m.arraySize)
    (hLower :
      lowerNetwork net outputs (.start m layout) = .ok (program, bench))
    (hLower' :
      lowerNetwork net outputs (.start m' layout') =
        .ok (program', bench')) :
    program' = program ∧ bench'.tensors = bench.tensors := by
  unfold lowerNetwork at hLower hLower'
  cases hOrder : net.order outputs with
  | error e =>
      rw [hOrder] at hLower
      cases hLower
  | ok nodes =>
      rw [hOrder] at hLower hLower'
      dsimp only at hLower hLower'
      have hRecast := lowerNodes_recast (.toMachine m' layout') net outputs
        nodes (.start m layout)
      rw [Workbench.recast_start hArray, hLower', hLower] at hRecast
      cases hRecast
      exact ⟨rfl, rfl⟩

/- A compiled program stacks its accumulator tensors. -/
theorem Compiles.stacked
    {net : Network ν}
    {outputs : List String}
    {m : Machine}
    {lookahead : Nat}
    {nodes roots : List ν}
    {s : Lowering ν}
    {run : Run}
    (hCompiles : Compiles net outputs m lookahead nodes roots s run) :
    Stacks s.bench.tensors m.accumulatorDepth (computed s.program).reverse
      (accumulated run.bench.memory.history).reverse :=
  hCompiles.scheduled.stacked hCompiles.sound.program
    (hCompiles.lowersAll.drained rfl)

/-
  Two machines with arrays of one size and accumulator memories
  of one depth place the accumulator tensors of a network alike,
  with any lookaheads, and the host finds its tensors in the same
  places.
-/
theorem compile_places_alike
    (net : Network ν)
    (outputs : List String)
    {m m' : Machine}
    {lookahead lookahead' : Nat}
    {c c' : Compiled}
    (hArray : m'.arraySize = m.arraySize)
    (hDepth : m'.accumulatorDepth = m.accumulatorDepth)
    (hCompile : compile net outputs m lookahead = .ok c)
    (hCompile' : compile net outputs m' lookahead' = .ok c') :
    accumulated c'.bindings = accumulated c.bindings ∧
      c'.host = c.host := by
  rcases compiles_of_compile hCompile with
    ⟨nodes, roots, s, run, hStages, rfl⟩
  rcases compiles_of_compile hCompile' with
    ⟨nodes', roots', s', run', hStages', rfl⟩
  rcases lowerNetwork_alike hArray hStages.program hStages'.program with
    ⟨hProgram, hTensors⟩
  have hAccepted := (hStages.scheduled.sound.lowered trivial).accepted
  constructor
  · have hPlaced := hStages'.stacked
    rw [hProgram, hTensors, hDepth] at hPlaced
    exact List.reverse_inj.mp
      (hPlaced.unique (hAccepted.depth_pos .accumulator) hStages.stacked)
  · calc run'.bench.tensors.host
      _ = s'.bench.tensors.host := hStages'.scheduled.host_eq
      _ = s.bench.tensors.host := by rw [hTensors]
      _ = run.bench.tensors.host := hStages.scheduled.host_eq.symm

theorem exists_of_map_eq_ok
    {ε α β : Type}
    {x : Except ε α}
    {f : α → β}
    {b : β}
    (hMap : x.map f = .ok b) :
    ∃ a, x = .ok a ∧ f a = b := by
  cases x with
  | error e => cases hMap
  | ok a => exact ⟨a, rfl, Except.ok.inj hMap⟩

/-
  With one vector of local memory two tensors are evicted, with
  four none, and the accumulator tensors are placed alike.
-/
theorem compile_places_alike_rectifiedSum :
    ∃ c c',
      compile rectifiedSum ["sum"] oneVector 8 = .ok c ∧
      compile rectifiedSum ["sum"]
          { oneVector with localDepth := 4, dram0Depth := 16 } 1 =
        .ok c' ∧
      c.schedule.spills = 2 ∧ c'.schedule.spills = 0 ∧
      accumulated c'.bindings = accumulated c.bindings ∧
      c'.host = c.host := by
  let m : Machine := { oneVector with localDepth := 4, dram0Depth := 16 }
  have hSpills :
      (compile rectifiedSum ["sum"] oneVector 8).map (·.schedule.spills) =
        .ok 2 := by
    decide +kernel
  have hSpills' :
      (compile rectifiedSum ["sum"] m 1).map (·.schedule.spills) =
        .ok 0 := by
    decide +kernel
  rcases exists_of_map_eq_ok hSpills with ⟨c, hCompile, hTwo⟩
  rcases exists_of_map_eq_ok hSpills' with ⟨c', hCompile', hNone⟩
  have hArray : m.arraySize = oneVector.arraySize := rfl
  have hDepth : m.accumulatorDepth = oneVector.accumulatorDepth := rfl
  have hAlike := compile_places_alike rectifiedSum ["sum"] hArray hDepth
    hCompile hCompile'
  exact ⟨c, c', hCompile, hCompile', hTwo, hNone, hAlike⟩

end Systolic
