import Systolic.Proofs.Compile.Meaning
import Systolic.Proofs.Lowering.Homes

/-
  This file proves that the places of tensors in DRAM tile what a
  compilation uses of the banks, and that this fits the machine.
  DRAM is handed out without a look at the depth of a bank. But
  each place is named by an operation that is committed, which
  loads, stores or spills its tensor, and an operation is only
  encoded if the place that it names lies inside its bank.

  Key definitions include:
    * `Operation.place?`
    * `TensorTable.InBank`
    * `Journal.Banked`
    * `Compiled.dramUsed`

  Key theorems include:
    * `Operation.inBank_of_encode`
    * `Journal.Banked.step`
    * `compile_tiles_banks`
-/

namespace Systolic

------------------------------------------------------------
-- Places of Operations
------------------------------------------------------------

/- The place of a tensor that an operation loads from or stores to. -/
def Operation.place? : Operation → Option (TensorId × DramSlot)
| .load t => some (t, .home)
| .store t => some (t, .exported)
| .spill t => some (t, .spilled)
| _ => none

/- A tensor has a place, which lies inside its bank. -/
def TensorTable.InBank
    (table : TensorTable)
    (m : Machine)
    (t : TensorId)
    (slot : DramSlot) : Prop :=
  ∃ tensor l,
    table.get? t = some tensor ∧ tensor.slot? slot = some l ∧
      l.address + tensor.layout.depth ≤ m.bankDepth l.bank

theorem TensorTable.InBank.extend
    {table table' : TensorTable}
    {m : Machine}
    {t : TensorId}
    {slot : DramSlot}
    (hInBank : table.InBank m t slot)
    (hExtends : table.Extends table') :
    table'.InBank m t slot := by
  rcases hInBank with ⟨tensor, l, hGet, hSlot, hInside⟩
  rcases hExtends t tensor hGet with ⟨grown, hGrown, hGrows⟩
  refine ⟨grown, l, hGrown, hGrows.slot?_eq hSlot, ?_⟩
  rw [hGrows.layout_eq]
  exact hInside

/- A move finds the place of its tensor inside its bank. -/
theorem Placement.inBank_of_move
    {α : Type}
    {p : Placement}
    {op : Operation}
    {t : TensorId}
    {slot : DramSlot}
    {rest : Tensor → DramLocation → Except CompileError α}
    {a : α}
    (hMove :
      (do
        let tensor ← p.tensors.fetch t
        let l ← p.inDram op (tensor.slot? slot) tensor.layout.depth
        rest tensor l) = .ok a) :
    p.tensors.InBank p.machine t slot := by
  cases hGet : p.tensors.get? t with
  | none =>
      rw [TensorTable.fetch, hGet] at hMove
      cases hMove
  | some tensor =>
      rw [TensorTable.fetch_eq_ok hGet] at hMove
      cases hSlot : tensor.slot? slot with
      | none =>
          simp only [bind, Except.bind, inDram, hSlot] at hMove
          cases hMove
      | some l =>
          refine ⟨tensor, l, hGet, hSlot, ?_⟩
          simp only [bind, Except.bind, inDram, hSlot] at hMove
          rw [← bankDepth_eq]
          by_contra hBeyond
          rw [if_neg hBeyond] at hMove
          cases hMove

/- What is encoded moves a tensor inside the bank of its place. -/
theorem Operation.inBank_of_encode
    {w : WordLayout}
    {p : Placement}
    {op : Operation}
    {e : Encoded}
    {t : TensorId}
    {slot : DramSlot}
    (hEncode : op.encode w p = .ok e)
    (hPlace : op.place? = some (t, slot)) :
    p.tensors.InBank p.machine t slot := by
  rcases Operation.encode_eq_ok hEncode with ⟨row, hRow, -⟩
  cases op with
  | load => cases hPlace; exact Placement.inBank_of_move hRow
  | store => cases hPlace; exact Placement.inBank_of_move hRow
  | spill => cases hPlace; exact Placement.inBank_of_move hRow
  | reload => cases hPlace
  | matMul => cases hPlace
  | accumulate => cases hPlace
  | activate => cases hPlace

------------------------------------------------------------
-- Journals
------------------------------------------------------------

/- A step that gives a tensor a place gives it one it did not have. -/
theorem View.Step.packs
    {v v' : View}
    (hPacks : v.tensors.Packs v.dram)
    (hStep : v.Step v') :
    v'.tensors.Packs v'.dram := by
  cases hStep with
  | leave hLeaves =>
      cases hLeaves with
      | copied => exact hPacks
      | stored _ _ _ hEntry hCopy _ =>
          refine hPacks.reserve hEntry ?_ rfl
          exact (Option.or_eq_none_iff.mp hCopy).1
  | reload => exact hPacks
  | commit => exact hPacks
  | drop => exact hPacks

/-
  Every place of a tensor is named by an operation of a program
  or by one that is committed.
-/
def View.Names
    (v : View)
    (program : List Operation) : Prop :=
  ∀ t tensor slot,
    v.tensors.get? t = some tensor →
    (tensor.slot? slot).isSome →
      ∃ op, op.place? = some (t, slot) ∧ (op ∈ program ∨ op ∈ v.done)

theorem View.Names.of_done
    {v v' : View}
    {program : List Operation}
    (hNames : v.Names program)
    (hTensors : v'.tensors = v.tensors)
    (hDone : ∀ op ∈ v.done, op ∈ v'.done) :
    v'.Names program := by
  intro t tensor slot hGet hSlot
  rw [hTensors] at hGet
  rcases hNames t tensor slot hGet hSlot with
    ⟨op, hPlace, hProgram | hCommitted⟩
  · exact ⟨op, hPlace, .inl hProgram⟩
  · exact ⟨op, hPlace, .inr (hDone op hCommitted)⟩

/- A tensor that gets a place to wait in is stored there. -/
theorem View.Step.names
    {v v' : View}
    {program : List Operation}
    (hNames : v.Names program)
    (hStep : v.Step v') :
    v'.Names program := by
  cases hStep with
  | reload => exact hNames.of_done rfl (fun _ => List.mem_append_left _)
  | commit => exact hNames.of_done rfl (fun _ => List.mem_append_left _)
  | drop => exact hNames.of_done rfl (fun _ hMem => hMem)
  | @leave t _ hLeaves =>
      cases hLeaves with
      | copied => exact hNames.of_done rfl (fun _ hMem => hMem)
      | @stored _ tensor _ _ _ hEntry =>
          have hOld :
              { v with done := v.done ++ [Operation.spill t] }.Names
                program :=
            hNames.of_done rfl (fun _ => List.mem_append_left _)
          intro u grown slot hGet hSlot
          rw [TensorTable.get?_modify] at hGet
          split at hGet
          case isFalse => exact hOld u grown slot hGet hSlot
          case isTrue hSame =>
            subst hSame
            rw [hEntry] at hGet
            cases hGet
            by_cases hSpilled : slot = .spilled
            · subst hSpilled
              exact ⟨.spill u, rfl,
                .inr (List.mem_append_right _ (List.mem_singleton.mpr rfl))⟩
            · rw [Tensor.slot?_setSlot, if_neg hSpilled] at hSlot
              exact hOld u tensor slot hEntry hSlot

namespace Journal

/-
  DRAM is packed, places have operations that name them, and the
  committed ones name places inside their banks.
-/
structure Banked
    (task : Task)
    (j : Journal) : Prop where
  packs : j.view.tensors.Packs j.view.dram
  names : j.view.Names task.program
  inBank :
    ∀ op ∈ j.view.done, ∀ t slot, op.place? = some (t, slot) →
      j.view.tensors.InBank task.machine t slot

namespace Banked

variable {task : Task} {j j' : Journal} {v : View}

/- An operation is entered with its place inside its bank. -/
theorem enter
    {c : CommittedOp}
    {e : Encoded}
    (hSettled : j.view.Settled)
    (hBanked : j.Banked task)
    (hStep : j.view.Step v)
    (hDone : v.done = j.view.done ++ [c.operation])
    (hEnters : j.Enters task v c e) :
    (j.entered v c e).Banked task := by
  rcases hEnters with ⟨p, hShows, hRecords⟩
  constructor
  case packs => exact hStep.packs hBanked.packs
  case names => exact hStep.names hBanked.names
  case inBank =>
    intro op hMem t slot hPlace
    change op ∈ v.done at hMem
    rw [hDone] at hMem
    rcases List.mem_append.mp hMem with hOld | hLast
    · exact (hBanked.inBank op hOld t slot hPlace).extend
        (hStep.extends hSettled)
    · rcases List.mem_singleton.mp hLast with rfl
      have hInBank :=
        Operation.inBank_of_encode hRecords.encoded hPlace
      rw [hShows.tensors_eq, hShows.machine_eq] at hInBank
      exact hInBank

theorem step
    (hSettled : j.view.Settled)
    (hBanked : j.Banked task)
    (hStep : j.Step task j') :
    j'.Banked task := by
  cases hStep with
  | silent hStep _ hDone =>
      constructor
      case packs => exact hStep.packs hBanked.packs
      case names => exact hStep.names hBanked.names
      case inBank =>
        intro op hMem t slot hPlace
        rw [hDone] at hMem
        exact (hBanked.inBank op hMem t slot hPlace).extend
          (hStep.extends hSettled)
  | insert hStep _ hDone _ hEnters =>
      exact hBanked.enter hSettled hStep hDone hEnters
  | commit hCommit _ _ hEnters =>
      exact hBanked.enter hSettled (.commit hCommit) rfl hEnters

end Banked

end Journal

------------------------------------------------------------
-- Compiled Networks
------------------------------------------------------------

/- The number of vectors of a bank that a compilation uses. -/
def Compiled.dramUsed
    (c : Compiled) : DramBank → Nat
| .dram0 => c.summary.dram0Used
| .dram1 => c.summary.dram1Used

theorem Compiled.dramUsed_ofBench
    (bench : Workbench)
    (schedule : Schedule)
    (bank : DramBank) :
    (Compiled.ofBench bench schedule).dramUsed bank =
      bench.dram.used bank := by
  cases bank <;> rfl

namespace Compiles

variable {ν : Type} [DecidableEq ν]
variable {net : Network ν} {outputs : List String} {m : Machine}
variable {lookahead : Nat} {nodes roots : List ν}
variable {s : Lowering ν} {run : Run}

section

variable (hStages : Compiles net outputs m lookahead nodes roots s run)
include hStages

/- The program loads from every home and stores to every export. -/
theorem names_start :
    (View.start s.bench s.program).Names s.program := by
  intro t tensor slot hGet hSlot
  cases slot with
  | home =>
      have hLoad := hStages.lowersAll.loaded rfl hStages.order
        hStages.requested hGet hSlot
      exact ⟨.load t, rfl, .inl hLoad⟩
  | exported =>
      have hStore := hStages.sound.stored t tensor hGet hSlot
      exact ⟨.store t, rfl, .inl hStore⟩
  | spilled =>
      have hNone := (hStages.sound.fresh t tensor hGet).spilled_eq
      rw [Tensor.slot?, hNone] at hSlot
      cases hSlot

theorem banked :
    run.journal.Banked (.ofLowering m s lookahead) := by
  refine hStages.scheduled.invariant ?_ ?_
  · constructor
    case packs => exact hStages.lowersAll.packed TensorTable.packs_empty
    case names => exact hStages.names_start
    case inBank =>
      intro op hMem
      cases hMem
  · intro j j' hLegal hBefore hStep
    exact hBefore.step hLegal.toSettled hStep

/- Every place of a tensor lies inside its bank. -/
theorem inBank
    {t : TensorId}
    {tensor : Tensor}
    {slot : DramSlot}
    (hGet : run.bench.tensors.get? t = some tensor)
    (hSlot : (tensor.slot? slot).isSome) :
    run.bench.tensors.InBank m t slot := by
  have hBanked := hStages.banked
  rcases hBanked.names t tensor slot hGet hSlot with
    ⟨op, hPlace, hProgram | hDone⟩
  · exact hBanked.inBank op (hStages.mem_done hProgram) t slot hPlace
  · exact hBanked.inBank op hDone t slot hPlace

/- The last vector that is used belongs to a place inside its bank. -/
theorem used_le
    (bank : DramBank) :
    run.bench.dram.used bank ≤ m.bankDepth bank := by
  by_contra hOver
  have hLast :
      run.bench.dram.used bank - 1 < run.bench.dram.used bank := by
    omega
  rcases hStages.banked.packs.filled hLast with
    ⟨t, slot, l, size, hExtent, rfl, -, hEnd⟩
  rcases Option.bind_eq_some_iff.mp hExtent with ⟨tensor, hGet, hSlot⟩
  rcases Option.map_eq_some_iff.mp hSlot with ⟨k, hPlace, hPair⟩
  cases hPair
  have hSome : (tensor.slot? slot).isSome := by simp [hPlace]
  rcases hStages.inBank hGet hSome with
    ⟨tensor', k', hGet', hPlace', hInside⟩
  cases hGet.symm.trans hGet'
  cases hPlace.symm.trans hPlace'
  omega

end

end Compiles

/-
  The places of tensors in DRAM lie apart, each in the bank of its
  kind: homes of constants in the second one, all others in the
  first. Together they are the vectors below the number that is
  used of their bank, and that number fits the machine.
-/
theorem compile_tiles_banks
    {ν : Type}
    [DecidableEq ν]
    (net : Network ν)
    (outputs : List String)
    {m : Machine}
    {lookahead : Nat}
    {c : Compiled}
    (hCompile : compile net outputs m lookahead = .ok c) :
    (∀ t slot l size t' slot' l' size',
      c.tensors.extent? t slot = some (l, size) →
      c.tensors.extent? t' slot' = some (l', size') →
      (t, slot) ≠ (t', slot') →
        l.Apart size l' size') ∧
    (∀ t tensor slot l,
      c.tensors.get? t = some tensor →
      tensor.slot? slot = some l →
        tensor.role.bank? slot = some l.bank) ∧
    ∀ bank,
      (∀ a, a < c.dramUsed bank ↔ c.tensors.Occupies bank a) ∧
        c.dramUsed bank ≤ m.bankDepth bank := by
  rcases compiles_of_compile hCompile with
    ⟨nodes, roots, s, run, hStages, rfl⟩
  have hLaid := (hStages.scheduled.sound.lowered trivial).laid
  have hPacks := hStages.banked.packs
  refine ⟨?_, ?_, ?_⟩
  · intro t slot l size t' slot' l' size' hExtent hExtent' hKeys
    exact hLaid.apart hExtent hExtent' hKeys
  · intro t tensor slot l hGet hSlot
    exact hPacks.banked hGet hSlot
  · intro bank
    rw [Compiled.dramUsed_ofBench]
    refine ⟨?_, hStages.used_le bank⟩
    intro a
    constructor
    · exact hPacks.filled
    · rintro ⟨t, slot, l, size, hExtent, rfl, -, hEnd⟩
      exact Nat.lt_of_lt_of_le hEnd (hLaid.below hExtent)

/-
  Two inputs, two rectified inputs that are spilled and the sum
  fill a first bank of five vectors to its end.
-/
theorem compile_tiles_banks_rectifiedSum :
    ∃ c,
      compile rectifiedSum ["sum"] { oneVector with dram0Depth := 5 } 8 =
        .ok c ∧
      c.schedule.spills = 2 ∧
      c.tensors.Occupies .dram0 4 ∧ ¬ c.tensors.Occupies .dram0 5 ∧
      c.dramUsed .dram0 ≤ 5 ∧ c.dramUsed .dram1 ≤ oneVector.dram1Depth := by
  have hFacts :
      (compile rectifiedSum ["sum"] { oneVector with dram0Depth := 5 }
        8).toOption.map
        (fun c => (c.schedule.spills, c.dramUsed .dram0)) =
      some (2, 5) := by
    decide +kernel
  cases hCompile :
      compile rectifiedSum ["sum"] { oneVector with dram0Depth := 5 } 8 with
  | error e =>
      rw [hCompile] at hFacts
      cases hFacts
  | ok c =>
      rw [hCompile] at hFacts
      simp only [Except.toOption, Option.map_some, Option.some.injEq,
        Prod.mk.injEq] at hFacts
      have hBanks :=
        (compile_tiles_banks rectifiedSum ["sum"] hCompile).2.2
      rcases hBanks .dram0 with ⟨hTiles, hInside⟩
      rw [hFacts.2] at hTiles
      refine ⟨c, rfl, hFacts.1, (hTiles 4).mp (by omega), ?_, hInside,
        (hBanks .dram1).2⟩
      intro hOccupies
      have hBelow := (hTiles 5).mpr hOccupies
      omega

end Systolic
