import Systolic.Proofs.Schedule.Sound

/-
  This file proves that the commitment of an operation is made
  of steps: tensors leave the chip until the result has a place,
  the operation commits, and what nothing reads is dropped.

  Key definitions include:
    * `Commit.Commits`

  Key theorems include:
    * `Commit.evict_ensures`
    * `Commit.perform_ensures`
    * `Commit.reload_ensures`
    * `Commit.operation_ensures`
-/

namespace Systolic

------------------------------------------------------------
-- Leaving the Chip
------------------------------------------------------------

namespace View

variable {v : View}

/- Tensors leave the chip one after the other. -/
def LeaveAll : View → View → Prop :=
  Relation.ReflTransGen (fun v v' => ∃ t, v.Leaves t v')

namespace LeaveAll

variable {program : List Operation} {v' : View}

section

variable (hLegal : v.Legal program) (hLeave : v.LeaveAll v')
include hLegal hLeave

theorem legal :
    v'.Legal program := by
  induction hLeave with
  | refl => exact hLegal
  | tail _ hStep ih =>
      rcases hStep with ⟨t, hLeaves⟩
      exact ih.leave hLeaves

theorem pending_eq :
    v'.pending = v.pending := by
  induction hLeave with
  | refl => rfl
  | tail hFirst hStep ih =>
      rcases hStep with ⟨t, hLeaves⟩
      have hBefore := (legal hLegal hFirst).toSettled
      exact (hLeaves.departs hBefore).pending.trans ih

theorem tensors_extend :
    v.tensors.Extends v'.tensors := by
  induction hLeave with
  | refl => exact .refl _
  | tail hFirst hStep ih =>
      rcases hStep with ⟨t, hLeaves⟩
      have hBefore := (legal hLegal hFirst).toSettled
      exact ih.trans (hLeaves.departs hBefore).tensors

/- What is still on the chip was there before. -/
theorem onChip
    {t : TensorId}
    (hOn : v'.OnChip t) :
    v.OnChip t := by
  induction hLeave with
  | refl => exact hOn
  | tail hFirst hStep ih =>
      rcases hStep with ⟨u, hLeaves⟩
      have hBefore := (legal hLegal hFirst).toSettled
      have hDeparts := hLeaves.departs hBefore
      exact ih ((onChip_close hDeparts.history t).mp hOn).1

end

end LeaveAll

theorem LeaveAll.awaited
    {program : List Operation}
    {v' : View}
    (hLegal : v.Legal program)
    (hLeave : v.LeaveAll v')
    (hAwaited : v.Awaited) :
    v'.Awaited := by
  intro t hOn
  rw [unread_congr (hLeave.pending_eq hLegal)]
  exact hAwaited t (hLeave.onChip hLegal hOn)

/- What an operation does not read is awaited by another one. -/
theorem CanCommit.awaits
    {program : List Operation}
    {i : Nat}
    {op : Operation}
    {bs : List Binding}
    {t : TensorId}
    (hCommit : v.CanCommit i op bs)
    (hQueued : v.Queued program)
    (hOther : t ∉ op.reads)
    (hOn : v.OnChip t) :
    ¬ (v.committed i op bs).Unread t := by
  intro hUnread
  exact hCommit.awaited t hOn
    (hQueued.unread_of_committed hCommit.pending hOther hUnread)

/- What is on the chip was there before the result was placed. -/
theorem onChip_of_ne
    {v₁ : View}
    {t : TensorId}
    {writes : Option TensorId}
    {bs : List Binding}
    (hPlaces : List.Forall₂ v.Places writes.toList bs)
    (hHistory : v₁.history = v.history ++ bs)
    (hOn : v₁.OnChip t)
    (hOther : writes ≠ some t) :
    v.OnChip t := by
  rcases hOn with ⟨b, ⟨hMem, hOpen⟩, hTensor⟩
  rw [hHistory] at hMem
  rcases places_cases hPlaces with
    ⟨-, rfl⟩ | ⟨u, c, hU, rfl, hC⟩
  · rw [List.append_nil] at hMem
    exact ⟨b, ⟨hMem, hOpen⟩, hTensor⟩
  · rcases List.mem_append.mp hMem with hOld | hNew
    · exact ⟨b, ⟨hOld, hOpen⟩, hTensor⟩
    · rcases List.mem_singleton.mp hNew with rfl
      rw [hC.tensor_eq] at hTensor
      exact absurd (hTensor ▸ hU) hOther

end View

namespace Journal

/- Tensors leave the chip one after the other, each in one step. -/
def LeaveAll (task : Task) : Journal → Journal → Prop :=
  Relation.ReflTransGen (fun j j' =>
    j.Step task j' ∧ ∃ t, j.view.Leaves t j'.view)

variable {task : Task} {j j' : Journal}

theorem LeaveAll.steps
    (hLeave : j.LeaveAll task j') :
    j.Steps task j' := by
  induction hLeave with
  | refl => exact .refl
  | tail _ hBoth ih => exact ih.tail hBoth.1

theorem LeaveAll.view
    (hLeave : j.LeaveAll task j') :
    j.view.LeaveAll j'.view := by
  induction hLeave with
  | refl => exact .refl
  | tail _ hBoth ih => exact ih.tail hBoth.2

/- What stays while others are dropped is still to be read. -/
theorem Drops.awaited
    (hDrops : j.Drops task j')
    (hAwaited : j.view.Awaited) :
    j'.view.Awaited := by
  intro t hOn
  rw [hDrops.unread_iff]
  exact hAwaited t (hDrops.stays t hOn)

/- A journal with new bindings. -/
def placed
    (j : Journal)
    (bs : List Binding) : Journal :=
  { j with view := { j.view with history := j.view.history ++ bs } }

end Journal

namespace Commit

variable {task : Task} {pins : List TensorId} {run : Run}
variable {t : TensorId}
variable {anchor i : Nat} {program : List Operation} {op : Operation}
variable {kept : List TensorId} {bs : List Binding}

section

variable (hSound : run.Sound task pins)
include hSound

/- A tensor on the chip with a place to wait in is stored there. -/
theorem spillOut_ensures
    (hOn : run.view.OnChip t)
    (hUnpinned : t ∉ pins)
    (hSuits :
      task.lowered →
        ∃ b, run.view.Present b ∧ b.tensor = t ∧ run.view.Suits b)
    (hEmits :
      task.lowered → task.Emits run.bench.tensors (.spill t)) :
    Ensures
      (Asking.perform (fun _ => return ()) (.spill t) none anchor []) run
      task.Tolerates
      (fun _ run' => run'.Sound task pins ∧
        run.journal.Logs task (.spill t) none run'.journal ∧
        run'.bench.memory.clock = run.position) := by
  let run₁ := run.setMemory (run.bench.memory.setClock run.position)
  have hSound₁ : run₁.Sound task pins :=
    hSound.setMemory (hSound.memory.setClock _) (fun _ => rfl)
  have hPins : ∀ u ∈ (Operation.spill t).reads ++ [], run₁.view.OnChip u := by
    intro u hU
    have hSame : u = t := by simpa [Operation.reads] using hU
    rw [hSame]
    exact hOn
  have hFew :
      ∀ u ∈ (Operation.spill t).reads ++ [],
        ((Operation.spill t).reads ++ [] ++ pins).count u <
          UInt32.size := by
    intro u hU
    have hSame : u = t := by simpa [Operation.reads] using hU
    simp [Operation.reads, hSame, List.count_eq_zero_of_not_mem hUnpinned]
  unfold Asking.perform finish
  simp only [monadLift_self, ensures_bind, ensures_setClock]
  refine (forM_pin_ensures hSound₁ hPins hFew).weaken ?_
  intro _ run₂ hRun₂
  rcases hRun₂ with ⟨hSound₂, hKeeps₂⟩
  have hJournal₂ : run₂.journal = run.journal := hKeeps₂.journal_eq
  have hView₂ : run₂.view = run.view := hKeeps₂.view_eq
  have hTensors₂ : run₂.bench.tensors = run.bench.tensors :=
    congrArg View.tensors hView₂
  have hBound₂ :
      task.lowered →
        run₂.placement.AllBound (Operation.spill t).mentions := by
    intro hLowered
    apply hSound₂.allBound hLowered
    intro u hU
    rw [hView₂]
    rw [List.mem_singleton.mp hU]
    exact hSuits hLowered
  rw [← hTensors₂] at hEmits
  change Ensures (emit (.spill t) none anchor) run₂ task.Tolerates _
  refine (emit_ensures hSound₂ hEmits hBound₂).weaken ?_
  intro _ run₃ hRun₃
  rcases hRun₃ with ⟨hSound₃, hLogs₃, hClock₃⟩
  refine (forM_unpin_ensures hSound₃).weaken ?_
  intro _ run₄ hRun₄
  rcases hRun₄ with ⟨hSound₄, hKeeps₄⟩
  have hClock₄ : run₄.bench.memory.clock = run.position := by
    rw [hKeeps₄.clock_eq, hClock₃, hKeeps₂.clock_eq]
    rfl
  -- Nothing is released, since a spill has no place in the program.
  change Ensures (List.forM [t] noteNextUse) run₄ task.Tolerates _
  refine (forM_noteNextUse_ensures hSound₄).weaken ?_
  intro _ run₅ hRun₅
  rcases hRun₅ with ⟨hSound₅, hKeeps₅⟩
  refine ⟨hSound₅, ?_, hKeeps₅.clock_eq.trans hClock₄⟩
  rw [hKeeps₅.journal_eq, hKeeps₄.journal_eq, ← hJournal₂]
  exact hLogs₃

/- A tensor without a copy in DRAM gets a place to wait in. -/
theorem reserveSpill_ensures
    {tensor : Tensor}
    (hEntry : run.bench.tensors.get? t = some tensor)
    (hCopy : tensor.dramCopy = none) :
    Ensures (reserveSpill t) run task.Tolerates
      (fun _ run' => run'.Sound task pins ∧
        run.view.dram.used .dram0 + tensor.layout.depth < Count.limit ∧
        run' =
          { run with
            bench := run.bench.reserved t .spilled .dram0
              tensor.layout.depth }) := by
  unfold reserveSpill
  simp only [ensures_bind, ensures_get]
  rcases Workbench.reserveSlot_cases hEntry .spilled .dram0 with
    ⟨overflow, hOverflow, hReserve⟩ | ⟨hFits, hReserve⟩
  · rw [hReserve]
    intro _
    exact .beyondCounts overflow hOverflow
  · rw [hReserve]
    refine ⟨?_, hFits, rfl⟩
    refine { hSound with lowered := ?_ }
    intro hLowered
    have hFacts := hSound.lowered hLowered
    constructor
    case accepted => exact hFacts.accepted
    case capacity => exact hFacts.capacity
    case program =>
      exact hFacts.program.extend (View.extends_spilled hEntry hCopy _)
    case laid => exact hFacts.laid.reserve hEntry .spilled .dram0 hFits
    case proper =>
      intro u found hGet
      have hOld := (TensorTable.get?_modify _ _ _ _).symm.trans hGet
      split at hOld
      · rcases Option.map_eq_some_iff.mp hOld with ⟨tensor, hTensor, rfl⟩
        exact hFacts.proper u tensor hTensor
      · exact hFacts.proper u found hOld

/- The binding of a tensor that may leave ends. -/
theorem spill_ensures
    (hEvictable : run.bench.memory.Evictable pins t) :
    Ensures (onMemory (Memory.spill t)) run task.Tolerates
      (fun _ run' => run'.Sound task pins ∧
        run'.journal =
          { run.journal with
            view :=
              { run.view with
                history := close run.view.history t
                  run.bench.memory.clock true } }) := by
  have hAction := Memory.spill_ensures (E := fun _ => False)
    hSound.memory hEvictable
  refine onMemory_ensures hAction (fun _ hFalse => hFalse.elim) ?_
  intro _ m hM
  rcases hM with ⟨hMemory, hKeeps, hClose⟩
  refine ⟨hSound.setMemory hMemory hKeeps.capacity, ?_⟩
  simp only [Run.journal, Run.view, Run.setMemory, hClose]

/- A tensor that may leave the scratchpad leaves it. -/
theorem evict_ensures
    (hSettled : run.view.Settled)
    (hAwaited : run.view.Awaited)
    (hEvictable : run.bench.memory.Evictable pins t) :
    Ensures (evict anchor t) run task.Tolerates
      (fun _ run' => run'.Sound task pins ∧
        run.journal.Step task run'.journal ∧
        run.view.Leaves t run'.view) := by
  rcases hEvictable with ⟨hUnpinned, b, hMem, hTensor, hOpen, hKind⟩
  have hPresent : run.view.Present b := ⟨hMem, hOpen⟩
  have hRead := hAwaited t ⟨b, hPresent, hTensor⟩
  have hSuits := hSettled.suits b hPresent
  rcases hSuits with ⟨tensor, hEntry, hSame, hSize⟩
  rw [hTensor] at hEntry
  change run.bench.tensors.get? t = some tensor at hEntry
  have hFetch : run.bench.tensors.fetch t = .ok tensor :=
    TensorTable.fetch_eq_ok hEntry
  have hAgain :
      ∀ run₁ : Run, run₁.view.history = run.view.history →
        run₁.bench.memory.Evictable pins t := by
    intro run₁ hHistory
    refine ⟨hUnpinned, b, ?_, hTensor, hOpen, hKind⟩
    change b ∈ run₁.view.history
    rw [hHistory]
    exact hMem
  unfold evict fetch
  simp only [ensures_bind, ensures_ask, hFetch]
  change Ensures _ run _ _
  cases hCopy : tensor.dramCopy with
  | some l =>
      let run₁ := run.setMemory (run.bench.memory.setClock run.position)
      have hSound₁ : run₁.Sound task pins :=
        hSound.setMemory (hSound.memory.setClock _) (fun _ => rfl)
      simp only [Option.isNone_some, Bool.false_eq_true, if_false,
        ensures_bind, ensures_setClock, ensures_pure]
      refine (spill_ensures hSound₁ (hAgain run₁ rfl)).weaken ?_
      intro _ run₂ hRun₂
      rcases hRun₂ with ⟨hSound₂, hJournal₂⟩
      have hCopied : tensor.dramCopy.isSome := by
        rw [hCopy]
        rfl
      have hLeaves := View.Leaves.copied hPresent hTensor hKind hEntry
        hCopied hRead
      rw [Run.position_view] at hLeaves
      refine ⟨hSound₂, ?_, ?_⟩
      · rw [hJournal₂]
        exact .silent (.leave hLeaves) rfl rfl
      · change run.view.Leaves t run₂.journal.view
        rw [hJournal₂]
        exact hLeaves
  | none =>
      simp only [Option.isNone_none, if_true, ensures_bind, ensures_pure]
      refine (reserveSpill_ensures hSound hEntry hCopy).weaken ?_
      intro _ run₁ hRun₁
      rcases hRun₁ with ⟨hSound₁, hFits, rfl⟩
      have hLeaves := View.Leaves.stored hPresent hTensor hKind hEntry
        hCopy hFits hRead
      rw [Run.position_view] at hLeaves
      let l : DramLocation :=
        { bank := .dram0, address := run.bench.dram.used .dram0 }
      have hEntry₁ :
          (run.bench.tensors.modify t
            (·.setSlot .spilled (some l))).get? t =
              some (tensor.setSlot .spilled (some l)) := by
        rw [TensorTable.get?_modify, if_pos rfl, hEntry, Option.map_some]
      refine (spillOut_ensures hSound₁ ⟨b, hPresent, hTensor⟩ hUnpinned
        ?_ ?_).weaken ?_
      · intro _
        refine ⟨b, hPresent, hTensor, tensor.setSlot .spilled (some l), ?_,
          hSame, hSize⟩
        rw [hTensor]
        exact hEntry₁
      · intro _
        exact Task.emits_spill ⟨hEntry₁, hSame.symm.trans hKind⟩ rfl
      · intro _ run₂ hRun₂
        rcases hRun₂ with ⟨hSound₂, hLogs₂, hClock₂⟩
        have hView₂ : run₂.view = _ := hLogs₂.view_eq
        refine (spill_ensures hSound₂
          (hAgain run₂ (by rw [hView₂]; rfl))).weaken ?_
        intro _ run₃ hRun₃
        rcases hRun₃ with ⟨hSound₃, hJournal₃⟩
        rw [hClock₂, hView₂] at hJournal₃
        refine ⟨hSound₃, ?_, ?_⟩
        · rw [hJournal₃]
          exact hLogs₂.insert (j := run.journal) rfl rfl rfl
            (fun c hC => .inl hC) (.leave hLeaves) rfl rfl
        · change run.view.Leaves t run₃.journal.view
          rw [hJournal₃]
          exact hLeaves

/- Victims leave the chip. -/
theorem forM_evict_ensures
    {victims : List TensorId}
    (hLegal : run.view.Legal program)
    (hAwaited : run.view.Awaited)
    (hDistinct : victims.Nodup)
    (hEvictable :
      ∀ u ∈ victims, run.bench.memory.Evictable pins u) :
    Ensures (victims.forM (evict anchor)) run task.Tolerates
      (fun _ run' => run'.Sound task pins ∧
        run.journal.LeaveAll task run'.journal) := by
  -- The victims to come are still different and on the chip.
  let I : List TensorId → Run → Prop := fun rest run' =>
    run'.Sound task pins ∧ run.journal.LeaveAll task run'.journal ∧
      rest.Nodup ∧ ∀ u ∈ rest, run'.bench.memory.Evictable pins u
  have hRun : Ensures (victims.forM (evict anchor)) run task.Tolerates
      (fun _ run' => I [] run') := by
    apply Ensures.forM I
    · exact ⟨hSound, .refl, hDistinct, hEvictable⟩
    · intro u rest run₁ hI
      rcases hI with ⟨hSound₁, hLeave₁, hDistinct₁, hEvictable₁⟩
      rcases List.nodup_cons.mp hDistinct₁ with ⟨hNew, hRest⟩
      have hSettled₁ := (hLeave₁.view.legal hLegal).toSettled
      refine (evict_ensures hSound₁ hSettled₁
        (hLeave₁.view.awaited hLegal hAwaited)
        (hEvictable₁ u List.mem_cons_self)).weaken ?_
      intro _ run₂ hRun₂
      rcases hRun₂ with ⟨hSound₂, hStep₂, hLeaves₂⟩
      refine ⟨hSound₂, hLeave₁.tail ⟨hStep₂, u, hLeaves₂⟩, hRest, ?_⟩
      intro w hW
      rcases hEvictable₁ w (List.mem_cons_of_mem u hW) with
        ⟨hUnpinned, b, hMem, hTensor, hOpen, hKind⟩
      have hHistory := (hLeaves₂.departs hSettled₁).history
      have hOther : b.tensor ≠ u := by
        intro hSame
        rw [hTensor] at hSame
        exact hNew (hSame ▸ hW)
      have hStill :=
        (View.present_close hHistory).mpr ⟨⟨hMem, hOpen⟩, hOther⟩
      exact ⟨hUnpinned, b, hStill.1, hTensor, hOpen, hKind⟩
  refine hRun.weaken ?_
  intro _ run' hI
  exact ⟨hI.1, hI.2.1⟩

end

------------------------------------------------------------
-- Placing a Result
------------------------------------------------------------

/- The tensor of a lowered program is in its table. -/
theorem fetch_yields
    {table : TensorTable}
    (hKnown :
      task.lowered → ∃ tensor, table.get? t = some tensor) :
    Yields (table.fetch t) task.Tolerates
      (fun tensor => table.get? t = some tensor) := by
  unfold TensorTable.fetch
  cases hGet : table.get? t with
  | some tensor => rfl
  | none =>
      intro hLowered
      rcases hKnown hLowered with ⟨tensor, hSome⟩
      cases hGet.symm.trans hSome

/-
  A run in which tensors have left the chip and then a tensor was
  placed where it fits.
-/
def Makes
    (task : Task)
    (pins : List TensorId)
    (j : Journal)
    (t : TensorId)
    (run : Run) : Prop :=
  ∃ j₁ b, j.LeaveAll task j₁ ∧ j₁.view.Places t b ∧
    task.Fits j₁.view b ∧
    run.journal = j₁.placed [b] ∧
    run.Sound task pins ∧
    run.bench.memory.clock = run.position

/- A tensor that was off the chip has got a binding. -/
theorem makes_of_allocate
    {tensor : Tensor}
    {address : Nat}
    {m : Memory}
    (hSound : run.Sound task pins)
    (hOff : ¬ run.view.OnChip t)
    (hClock : run.bench.memory.clock = run.position)
    (hEntry : run.bench.tensors.get? t = some tensor)
    (hMemory : m.Sound pins)
    (hKeeps : run.bench.memory.Keeps m)
    (hHistory :
      m.history = run.bench.memory.history ++
        [.opened t tensor.kind address tensor.layout.depth
          run.bench.memory.clock])
    (hFit :
      (run.bench.memory.freeList tensor.kind).bestFit
        tensor.layout.depth tensor.layout.alignment = some address) :
    Makes task pins run.journal t (run.setMemory m) := by
  let b : Binding :=
    .opened t tensor.kind address tensor.layout.depth
      run.bench.memory.clock
  refine ⟨run.journal, b, .refl, ?_,
    ⟨tensor, _, hEntry, hSound.spares tensor.kind, hFit⟩, ?_,
    hSound.setMemory hMemory hKeeps.capacity, hKeeps.clock.trans hClock⟩
  · constructor
    case tensor_eq => rfl
    case off => exact hOff
    case opened => rfl
    case unspilled => rfl
    case started => exact hClock.trans (Run.position_view run).symm
    case suits => exact ⟨tensor, hEntry, rfl, rfl⟩
    case apart =>
      intro c hC hKind
      have hOld : c ∈ m.history := by
        rw [hHistory]
        exact List.mem_append_left _ hC.1
      have hNew : b ∈ m.history := by
        rw [hHistory]
        exact List.mem_append_right _ (List.mem_singleton.mpr rfl)
      have hOther : c.tensor ≠ b.tensor := fun hSame => hOff ⟨c, hC, hSame⟩
      exact hMemory.apart_of_open hOld hC.2 hNew rfl hOther hKind
  · simp only [Journal.placed, Run.journal, Run.view, Run.setMemory,
      hHistory]
    rfl

section

variable (hSound : run.Sound task pins) (hLegal : run.view.Legal program)
variable (hAwaited : run.view.Awaited)
include hSound hLegal hAwaited

/- A tensor is placed after as many rounds as it takes. -/
theorem placeWithin_ensures
    {rounds : Nat}
    (hOff : ¬ run.view.OnChip t)
    (hClock : run.bench.memory.clock = run.position)
    (hKnown :
      task.lowered → ∃ tensor, run.bench.tensors.get? t = some tensor) :
    Ensures (placeWithin anchor t rounds) run task.Tolerates
      (fun _ run' => Makes task pins run.journal t run') := by
  induction rounds generalizing run with
  | zero =>
      unfold placeWithin Asking.placeWithin fetch
      simp only [monadLift_self, ensures_bind, ensures_ask, ensures_get,
        ensures_throw]
      refine (fetch_yields hKnown).weaken ?_
      intro tensor _ _
      exact .outOfMemory _ _ _ _
  | succ rounds ih =>
      unfold placeWithin Asking.placeWithin fetch
      simp only [monadLift_self, ensures_bind, ensures_ask]
      refine (fetch_yields hKnown).weaken ?_
      intro tensor hEntry
      have hAbsent : ¬ run.bench.memory.IsResident t :=
        fun hResident => hOff (hSound.isResident_iff.mp hResident)
      refine onMemory_ensures
        (Memory.allocate_ensures hSound.memory hAbsent) ?_ ?_
      · intro e hFull hLowered
        rw [hFull (hSound.unwrapped hLowered hEntry)]
        exact .outOfMemory _ _ _ _
      · intro result m hResult
        rcases hResult with
          ⟨address, rfl, hMemory, hKeeps, hHistory, hFit⟩ |
          ⟨victims, rfl, rfl, hDistinct, hEvictable⟩
        · exact makes_of_allocate hSound hOff hClock hEntry hMemory hKeeps
            hHistory hFit
        · simp only [ensures_bind, ensures_setClock]
          refine (forM_evict_ensures hSound hLegal hAwaited hDistinct
            hEvictable).weaken ?_
          intro _ run₁ hRun₁
          rcases hRun₁ with ⟨hSound₁, hLeave₁⟩
          let run₂ :=
            run₁.setMemory (run₁.bench.memory.setClock run₁.position)
          have hSound₂ : run₂.Sound task pins :=
            hSound₁.setMemory (hSound₁.memory.setClock _) (fun _ => rfl)
          have hOff₂ : ¬ run₂.view.OnChip t :=
            fun hOn => hOff (hLeave₁.view.onChip hLegal hOn)
          have hKnown₂ :
              task.lowered →
                ∃ tensor, run₂.bench.tensors.get? t = some tensor := by
            intro _
            rcases hLeave₁.view.tensors_extend hLegal t tensor hEntry with
              ⟨grown, hGrown, -⟩
            exact ⟨grown, hGrown⟩
          refine (ih hSound₂ (hLeave₁.view.legal hLegal)
            (hLeave₁.view.awaited hLegal hAwaited) hOff₂ rfl
            hKnown₂).weaken ?_
          intro _ run₃ hMakes
          rcases hMakes with ⟨j₁, b, hLeave₂, hRest⟩
          exact ⟨j₁, b, hLeave₁.trans hLeave₂, hRest⟩

/- The result of an operation is placed. -/
theorem placeResult_ensures
    (hOff : ¬ run.view.OnChip t)
    (hClock : run.bench.memory.clock = run.position)
    (hKnown :
      task.lowered → ∃ tensor, run.bench.tensors.get? t = some tensor) :
    Ensures (placeResult anchor t) run task.Tolerates
      (fun _ run' => Makes task pins run.journal t run') := by
  unfold placeResult Asking.placeResult
  simp only [monadLift_self, ensures_bind, ensures_get]
  exact placeWithin_ensures hSound hLegal hAwaited hOff hClock hKnown

/- What an operation writes is placed, which may be nothing. -/
theorem forM_placeResult_ensures
    {writes : Option TensorId}
    (hOff : ∀ t ∈ writes, ¬ run.view.OnChip t)
    (hClock : run.bench.memory.clock = run.position)
    (hKnown :
      task.lowered → ∀ t ∈ writes,
        ∃ tensor, run.bench.tensors.get? t = some tensor) :
    Ensures (writes.toList.forM (placeResult anchor)) run task.Tolerates
      (fun _ run' => ∃ j₁ bs, run.journal.LeaveAll task j₁ ∧
        List.Forall₂ j₁.view.Places writes.toList bs ∧
        (∀ b ∈ bs, task.Fits j₁.view b) ∧
        run'.journal = j₁.placed bs ∧
        run'.Sound task pins ∧
        run'.bench.memory.clock = run'.position) := by
  cases writes with
  | none =>
      exact ⟨run.journal, [], .refl, .nil, List.forall_mem_nil _,
        by simp [Journal.placed], hSound, hClock⟩
  | some t =>
      refine (placeResult_ensures hSound hLegal hAwaited (hOff t rfl)
        hClock (fun hLowered => hKnown hLowered t rfl)).bind ?_
      intro _ run' hMakes
      rcases hMakes with ⟨j₁, b, hLeave, hPlaces, hFits, hJournal, hRest⟩
      exact ⟨j₁, [b], hLeave, .cons hPlaces .nil,
        List.forall_mem_singleton.mpr hFits, hJournal, hRest⟩

end

------------------------------------------------------------
-- Operations
------------------------------------------------------------

/-
  A run in which tensors have left the chip and then an operation
  was committed, with its result placed where it fits.
-/
structure Commits
    (task : Task)
    (pins : List TensorId)
    (op : Operation)
    (origin : Option Nat)
    (kept : List TensorId)
    (j j₁ : Journal)
    (bs : List Binding)
    (run : Run) : Prop where
  leave : j.LeaveAll task j₁
  places : List.Forall₂ j₁.view.Places op.writes.toList bs
  fits : ∀ b ∈ bs, task.Fits j₁.view b
  onChip : ∀ t ∈ op.reads ++ kept, j₁.view.OnChip t
  logs : (j₁.placed bs).Logs task op origin run.journal
  sound : run.Sound task pins
  clock : run.bench.memory.clock = run.position - 1

section Entries

variable {origin : Option Nat}
variable {j j₁ : Journal}

section

variable (hCommits : Commits task pins op origin kept j j₁ bs run)
include hCommits

theorem Commits.view_eq :
    run.view =
      { j₁.view with
        history := j₁.view.history ++ bs
        done := j₁.view.done ++ [op] } :=
  hCommits.logs.view_eq

theorem Commits.onChip_writes
    (hWrites : op.writes = some t) :
    run.view.OnChip t := by
  rw [hCommits.view_eq]
  rcases View.places_cases hCommits.places with
    ⟨hNone, -⟩ | ⟨u, b, hU, rfl, hB⟩
  · cases hNone.symm.trans hWrites
  · cases hU.symm.trans hWrites
    exact ⟨b, ⟨List.mem_append_right _ (List.mem_singleton.mpr rfl),
      hB.opened⟩, hB.tensor_eq⟩

theorem Commits.onChip_kept
    (hKept : t ∈ op.reads ++ kept) :
    run.view.OnChip t := by
  rw [hCommits.view_eq]
  exact View.onChip_append rfl (hCommits.onChip t hKept)

theorem Commits.onChip_of_ne
    (hOn : run.view.OnChip t)
    (hOther : op.writes ≠ some t) :
    j₁.view.OnChip t := by
  rw [hCommits.view_eq] at hOn
  exact View.onChip_of_ne hCommits.places rfl hOn hOther

end

/- An operation that the scheduler adds is entered in one step. -/
theorem Commits.insert
    (hCommits : Commits task pins op none kept j j₁ bs run)
    (hStep : j₁.view.Step run.view) :
    j₁.Step task run.journal := by
  have hView := hCommits.view_eq
  have hPresent :
      ∀ b, (j₁.placed bs).view.Present b →
        j₁.view.Present b ∨ run.view.Present b := by
    rw [hView]
    exact fun b hB => .inr hB
  refine hCommits.logs.insert (j := j₁) rfl rfl ?_ hPresent hStep ?_ ?_
  · rw [hView]
    rfl
  · rw [hView]
  · rw [hView]

/- An operation of the program is entered as it is retired. -/
theorem Commits.commit
    (hCommits : Commits task pins op (some i) kept j j₁ bs run)
    (hCommit : j₁.view.CanCommit i op bs)
    (hWindow : (i, op) ∈ j₁.view.pending.take task.window) :
    j₁.Step task
      { run.journal with view := j₁.view.committed i op bs } := by
  rcases hCommits.logs.enters (j := j₁)
      (v := j₁.view.committed i op bs) rfl rfl rfl
      (fun b hB => .inr hB) with
    ⟨c, e, rfl, hOrigin, hEnters, hEntered⟩
  rw [hEntered]
  exact .commit hCommit hWindow hOrigin hEnters hCommits.fits

end Entries

/- The tensors of an operation are in place once its result is. -/
theorem suits_mentions
    {v v₁ : View}
    (hLegal : v.Legal program)
    (hPlaces : List.Forall₂ v.Places op.writes.toList bs)
    (hReads : ∀ t ∈ op.reads, v.OnChip t)
    (hView : v₁ = { v with history := v.history ++ bs }) :
    ∀ t ∈ op.mentions,
      ∃ b, v₁.Present b ∧ b.tensor = t ∧ v₁.Suits b := by
  subst hView
  intro t hMem
  by_cases hRead : t ∈ op.reads
  · rcases hReads t hRead with ⟨b, hPresent, hTensor⟩
    exact ⟨b, ⟨List.mem_append_left _ hPresent.1, hPresent.2⟩, hTensor,
      hLegal.suits b hPresent⟩
  · have hWrites := (Operation.mem_reads_or_writes hMem).resolve_left hRead
    rcases View.places_cases hPlaces with ⟨hNone, -⟩ | ⟨u, b, hU, rfl, hB⟩
    · cases hNone.symm.trans hWrites
    · cases hU.symm.trans hWrites
      exact ⟨b, ⟨List.mem_append_right _ (List.mem_singleton.mpr rfl),
        hB.opened⟩, hB.tensor_eq, hB.suits⟩

/-
  An operation commits if what it reads is on the chip and what
  it writes is not. What comes after that is left to `settle`.
-/
theorem perform_ensures
    {origin : Option Nat}
    {Q : Unit → Run → Prop}
    (hSound : run.Sound task [])
    (hLegal : run.view.Legal program)
    (hAwaited : run.view.Awaited)
    (hDistinct : (op.reads ++ kept).Nodup)
    (hOn : ∀ t ∈ op.reads ++ kept, run.view.OnChip t)
    (hOff : ∀ t ∈ op.writes, ¬ run.view.OnChip t)
    (hKnown :
      task.lowered → ∀ t ∈ op.writes,
        ∃ tensor, run.bench.tensors.get? t = some tensor)
    (hEmits : task.lowered → task.Emits run.bench.tensors op)
    (hSettle :
      ∀ j₁ bs run',
        Commits task [] op origin kept run.journal j₁ bs run' →
        Ensures (settle op origin) run' task.Tolerates Q) :
    Ensures (operation op origin anchor kept) run task.Tolerates Q := by
  let run₁ := run.setMemory (run.bench.memory.setClock run.position)
  have hSound₁ : run₁.Sound task [] :=
    hSound.setMemory (hSound.memory.setClock _) (fun _ => rfl)
  have hFew :
      ∀ t ∈ op.reads ++ kept,
        (op.reads ++ kept ++ []).count t < UInt32.size := by
    intro t hMem
    rw [List.append_nil, List.count_eq_one_of_mem hDistinct hMem]
    decide
  unfold operation Asking.operation Asking.perform finish
  simp only [monadLift_self, ensures_bind, ensures_setClock]
  refine (forM_pin_ensures hSound₁ hOn hFew).weaken ?_
  intro _ run₂ hRun₂
  rcases hRun₂ with ⟨hSound₂, hKeeps₂⟩
  have hJournal₂ : run₂.journal = run.journal := hKeeps₂.journal_eq
  have hView₂ : run₂.view = run.view := hKeeps₂.view_eq
  have hTensors₂ : run₂.bench.tensors = run.bench.tensors :=
    congrArg View.tensors hView₂
  have hClock₂ : run₂.bench.memory.clock = run₂.position := by
    rw [← Run.position_view, hView₂, Run.position_view, hKeeps₂.clock_eq]
    rfl
  rw [← hView₂] at hLegal hAwaited hOff
  rw [← hTensors₂] at hKnown hEmits
  refine (forM_placeResult_ensures hSound₂ hLegal hAwaited hOff hClock₂
    hKnown).weaken ?_
  intro _ run₃ hRun₃
  rcases hRun₃ with
    ⟨j₁, bs, hLeave, hPlaces, hFits, hJournal₃, hSound₃, hClock₃⟩
  have hView₃ :
      run₃.view = { j₁.view with history := j₁.view.history ++ bs } :=
    congrArg Journal.view hJournal₃
  -- The pins keep what the operation needs on the chip.
  have hOn₁ : ∀ t ∈ op.reads ++ kept, j₁.view.OnChip t := by
    intro t hMem
    have hPinned : run₃.view.OnChip t :=
      hSound₃.onChip_of_pinned (List.mem_append_left _ hMem)
    refine View.onChip_of_ne hPlaces (by rw [hView₃]) hPinned ?_
    intro hWrites
    apply hOff t hWrites
    rw [hView₂]
    exact hOn t hMem
  have hLegal₁ := hLeave.view.legal hLegal
  have hBound₃ : task.lowered → run₃.placement.AllBound op.mentions :=
    fun hLowered => hSound₃.allBound hLowered
      (suits_mentions hLegal₁ hPlaces
        (fun t hMem => hOn₁ t (List.mem_append_left _ hMem)) hView₃)
  have hEmits₃ :
      task.lowered → task.Emits run₃.bench.tensors op := by
    intro hLowered
    have hExtends := hLeave.view.tensors_extend hLegal
    have hTensors₃ : run₃.bench.tensors = j₁.view.tensors :=
      congrArg View.tensors hView₃
    rw [hTensors₃]
    exact (hEmits hLowered).extend hExtends
  refine (emit_ensures hSound₃ hEmits₃ hBound₃).weaken ?_
  intro _ run₄ hRun₄
  rcases hRun₄ with ⟨hSound₄, hLogs₄, hClock₄⟩
  refine (forM_unpin_ensures hSound₄).weaken ?_
  intro _ run₅ hRun₅
  rcases hRun₅ with ⟨hSound₅, hKeeps₅⟩
  have hView₄ : run₄.view = _ := hLogs₄.view_eq
  have hPosition₅ : run₅.position = run₃.position + 1 := by
    rw [← Run.position_view, ← Run.position_view, hKeeps₅.view_eq, hView₄]
    simp [View.position, Run.journal]
  apply hSettle j₁ bs run₅
  constructor
  case leave =>
    rw [← hJournal₂]
    exact hLeave
  case places => exact hPlaces
  case fits => exact hFits
  case onChip => exact hOn₁
  case logs =>
    rw [hKeeps₅.journal_eq, ← hJournal₃]
    exact hLogs₄
  case sound => exact hSound₅
  case clock =>
    rw [hKeeps₅.clock_eq, hClock₄, hClock₃, hPosition₅]
    omega

/- A tensor with a copy in DRAM comes back in one step. -/
theorem Commits.reloads
    {j j₁ : Journal}
    (hCommits : Commits task pins (.reload t) none kept j j₁ bs run)
    (hCopy :
      ∃ tensor, j₁.view.tensors.Holds t .scratchpad tensor ∧
        tensor.dramCopy.isSome)
    (hDefined : j₁.view.Defined t)
    (hRead : ¬ j₁.view.Unread t) :
    j₁.Step task run.journal := by
  rcases hCopy with ⟨tensor, hHolds, hSome⟩
  rcases List.forall₂_cons_left_iff.mp hCommits.places with
    ⟨b, rest, hPlaces, hNil, rfl⟩
  cases hNil
  have hKind : b.kind = .scratchpad := by
    rcases hPlaces.suits with ⟨other, hEntry, hSame, -⟩
    rw [hPlaces.tensor_eq] at hEntry
    cases hHolds.1.symm.trans hEntry
    exact hSame.trans hHolds.2
  apply hCommits.insert
  rw [hCommits.view_eq]
  exact .reload hPlaces hKind hHolds.1 hSome hDefined hRead

/- A tensor that is read comes back, and what is kept stays. -/
theorem reload_ensures
    (hSound : run.Sound task [])
    (hLegal : run.view.Legal program)
    (hOff : ¬ run.view.OnChip t)
    (hDefined : run.view.Defined t)
    (hRead : ¬ run.view.Unread t)
    (hCopy :
      ∃ tensor, run.view.tensors.Holds t .scratchpad tensor ∧
        tensor.dramCopy.isSome)
    (hDistinct : kept.Nodup)
    (hKept : ∀ u ∈ kept, run.view.OnChip u)
    (hAwaited : run.view.Awaited) :
    Ensures (operation (.reload t) none anchor kept) run task.Tolerates
      (fun _ run' => run'.Sound task [] ∧
        run.journal.Steps task run'.journal ∧
        run'.view.pending = run.view.pending ∧
        run'.view.OnChip t ∧
        (∀ u ∈ kept, ¬ run.view.Unread u → run'.view.OnChip u) ∧
        run'.view.Awaited) := by
  have hPlaced : ∀ u ∈ (Operation.reload t).writes, u = t := by
    intro u hU
    exact (Option.some.inj hU).symm
  refine perform_ensures hSound hLegal hAwaited hDistinct hKept
    ?_ ?_ ?_ ?_
  · intro u hU
    rw [hPlaced u hU]
    exact hOff
  · intro _ u hU
    rcases hCopy with ⟨tensor, hHolds, -⟩
    rw [hPlaced u hU]
    exact ⟨tensor, hHolds.1⟩
  · exact fun _ => Task.emits_reload hCopy
  · intro j₁ bs run₁ hCommits
    have hLeave := hCommits.leave.view
    have hPending := hLeave.pending_eq hLegal
    have hUnread : ∀ u, j₁.view.Unread u ↔ run.view.Unread u :=
      View.unread_congr hPending
    have hSteps : run.journal.Steps task run₁.journal := by
      refine hCommits.leave.steps.tail (hCommits.reloads ?_ ?_ ?_)
      · exact View.holds_dramCopy_extend (hLeave.tensors_extend hLegal) hCopy
      · exact (View.defined_congr hPending t).mpr hDefined
      · rw [hUnread]
        exact hRead
    have hUnread₁ : ∀ u, run₁.view.Unread u ↔ run.view.Unread u := by
      intro u
      rw [hCommits.view_eq]
      exact hUnread u
    have hAwaited₁ : run₁.view.Awaited := by
      intro u hU
      rw [hUnread₁]
      by_cases hSame : u = t
      · rw [hSame]
        exact hRead
      · have hOld := hCommits.onChip_of_ne hU
          (fun hWrites => hSame (hPlaced u hWrites))
        exact hAwaited u (hLeave.onChip hLegal hOld)
    change Ensures
      (List.forM [t] releaseUnread >>= fun _ =>
        List.forM [t] noteNextUse) run₁ task.Tolerates _
    refine (forM_releaseUnread_ensures hCommits.sound hCommits.clock
      (by simp)).bind ?_
    intro _ run₂ hRun₂
    rcases hRun₂ with ⟨hSettles₂, -⟩
    refine (forM_noteNextUse_ensures hSettles₂.sound).weaken ?_
    intro _ run₃ hRun₃
    rcases hRun₃ with ⟨hSound₃, hKeeps₃⟩
    rw [hKeeps₃.view_eq, hKeeps₃.journal_eq]
    have hDrops := hSettles₂.drops
    refine ⟨hSound₃, hSteps.trans hDrops.steps, ?_, ?_, ?_,
      hDrops.awaited hAwaited₁⟩
    · exact (hDrops.pending_eq.trans
        (congrArg View.pending hCommits.view_eq)).trans hPending
    · refine hDrops.keeps t (hCommits.onChip_writes rfl) ?_
      exact fun hNone => hRead ((hUnread₁ t).mp hNone)
    · intro u hU hReadU
      refine hDrops.keeps u
        (hCommits.onChip_kept (List.mem_append_right _ hU)) ?_
      exact fun hNone => hReadU ((hUnread₁ u).mp hNone)

/- A committed operation is taken from the pending ones. -/
theorem retire_ensures
    (hSound : run.Sound task pins)
    (hKnown :
      task.lowered → ∀ t ∈ op.mentions,
        ∃ tensor, run.bench.tensors.get? t = some tensor) :
    Ensures (retire op i) run task.Tolerates
      (fun _ run' => run'.Sound task pins ∧
        run'.journal =
          { run.journal with
            view :=
              { run.view with
                pending :=
                  run.view.pending.eraseP (fun p => p.1 = i) } } ∧
        run'.bench.memory.clock = run.bench.memory.clock) := by
  unfold retire
  simp only [ensures_bind, ensures_ask, ensures_modify]
  refine (Task.cycles_yields hSound.busWidth_pos hKnown).weaken ?_
  intro cycles _
  refine ⟨{ hSound with program_eq := ?_ }, ?_, rfl⟩
  · exact (Ledger.program_retire _ i).trans hSound.program_eq
  · simp [Run.journal, Run.view, Run.retire]

/-
  A committed operation of the program is retired, and what it
  names is released unless something still reads it.
-/
theorem settle_ensures
    {j j₁ : Journal}
    (hCommits : Commits task [] op (some i) kept j j₁ bs run)
    (hCommit : j₁.view.CanCommit i op bs)
    (hWindow : (i, op) ∈ j₁.view.pending.take task.window)
    (hQueued : j₁.view.Queued task.program)
    (hKnown :
      task.lowered → ∀ t ∈ op.mentions,
        ∃ tensor, run.bench.tensors.get? t = some tensor) :
    Ensures (settle op (some i)) run task.Tolerates
      (fun _ run' => run'.Sound task [] ∧
        j₁.Steps task run'.journal ∧
        run'.view.pending =
          j₁.view.pending.eraseP (fun p => p.1 = i) ∧
        run'.view.Awaited) := by
  unfold settle
  simp only [ensures_bind]
  change Ensures
    ((retire op i >>= fun _ => op.reads.forM releaseUnread) >>= fun _ =>
      pure ()) run task.Tolerates _
  simp only [ensures_bind, ensures_pure]
  refine (retire_ensures hCommits.sound hKnown).weaken ?_
  intro _ run₁ hRun₁
  rcases hRun₁ with ⟨hSound₁, hRetired₁, hClock₁⟩
  have hJournal₁ :
      run₁.journal =
        { run.journal with view := j₁.view.committed i op bs } := by
    rw [hRetired₁, hCommits.view_eq]
    rfl
  have hView₁ : run₁.view = j₁.view.committed i op bs :=
    congrArg Journal.view hJournal₁
  have hStep : j₁.Step task run₁.journal := by
    rw [hJournal₁]
    exact hCommits.commit hCommit hWindow
  have hClock₁ : run₁.bench.memory.clock = run₁.position - 1 := by
    rw [hClock₁, hCommits.clock, ← Run.position_view, ← Run.position_view,
      hView₁, hCommits.view_eq]
    rfl
  refine (forM_releaseUnread_ensures hSound₁ hClock₁ (by simp)).weaken ?_
  intro _ run₂ hRun₂
  rcases hRun₂ with ⟨hSettles₂, hReads₂⟩
  refine (forM_releaseUnread_ensures hSettles₂.sound hSettles₂.clock
    (by simp)).weaken ?_
  intro _ run₃ hRun₃
  rcases hRun₃ with ⟨hSettles₃, hWrites₃⟩
  refine (forM_noteNextUse_ensures hSettles₃.sound).weaken ?_
  intro _ run₄ hRun₄
  rcases hRun₄ with ⟨hSound₄, hKeeps₄⟩
  have hLater := hSettles₃.drops
  have hDrops := hSettles₂.drops.trans hLater
  rw [hKeeps₄.view_eq, hKeeps₄.journal_eq]
  refine ⟨hSound₄, hDrops.steps.head hStep, ?_, ?_⟩
  · exact hDrops.pending_eq.trans (congrArg View.pending hView₁)
  · -- What the operation names is released or read, and nothing
    -- else has changed.
    intro u hU hUnread
    by_cases hRead : u ∈ op.reads
    · exact hReads₂ u hRead (hLater.stays u hU)
        ((hLater.unread_iff u).mp hUnread)
    · by_cases hWrite : op.writes = some u
      · exact hWrites₃ u (Option.mem_toList.mpr hWrite) hU hUnread
      · have hOn₁ : run₁.view.OnChip u := hDrops.stays u hU
        have hUnread₁ : run₁.view.Unread u :=
          (hDrops.unread_iff u).mp hUnread
        rw [hView₁] at hOn₁ hUnread₁
        exact hCommit.awaits hQueued hRead
          (View.onChip_of_ne hCommits.places rfl hOn₁ hWrite) hUnread₁

/-
  An operation of the program commits once what it reads is on
  the chip.
-/
theorem operation_ensures
    (hSound : run.Sound task [])
    (hLegal : run.view.Legal task.program)
    (hWindow : (i, op) ∈ run.view.pending.take task.window)
    (hOldest :
      op.resource = .compute →
        ∀ p ∈ run.view.pending, p.2.resource = .compute → i ≤ p.1)
    (hReads : ∀ t ∈ op.reads, run.view.OnChip t)
    (hAwaited : run.view.Awaited) :
    Ensures (operation op (some i) i []) run task.Tolerates
      (fun _ run' => run'.Sound task [] ∧
        run.journal.Steps task run'.journal ∧
        run'.view.pending =
          run.view.pending.eraseP (fun p => p.1 = i) ∧
        run'.view.Awaited) := by
  have hMem := List.mem_of_mem_take hWindow
  have hGet := hLegal.listed i op hMem
  have hKnown :
      task.lowered → ∀ t ∈ op.mentions,
        ∃ tensor, run.bench.tensors.get? t = some tensor := by
    intro hLowered
    exact ((hSound.lowered hLowered).program.typed
      (List.mem_of_getElem? hGet)).get?_mentions
  refine perform_ensures hSound hLegal hAwaited ?_ ?_ ?_ ?_ ?_ ?_
  · rw [List.append_nil]
    exact op.nodup_reads
  · intro t hT
    rw [List.append_nil] at hT
    exact hReads t hT
  · intro t hWrites hOn
    rcases hOn with ⟨b, hPresent, rfl⟩
    exact hLegal.defined b hPresent (i, op) hMem hWrites
  · intro hLowered t hWrites
    exact hKnown hLowered t (Operation.mem_mentions_of_writes hWrites)
  · intro hLowered
    have hFacts := hSound.lowered hLowered
    exact Task.emits_of_typed hFacts.accepted
      (hFacts.program.typed (List.mem_of_getElem? hGet))
  · intro j₁ bs run₁ hCommits
    have hLeave := hCommits.leave.view
    have hPending : j₁.view.pending = run.view.pending :=
      hLeave.pending_eq hLegal
    have hTensors : run₁.bench.tensors = j₁.view.tensors :=
      congrArg View.tensors hCommits.view_eq
    have hKnown₁ :
        task.lowered → ∀ t ∈ op.mentions,
          ∃ tensor, run₁.bench.tensors.get? t = some tensor := by
      intro hLowered t hT
      rcases hKnown hLowered t hT with ⟨tensor, hEntry⟩
      rcases hLeave.tensors_extend hLegal t tensor hEntry with
        ⟨grown, hGrown, -⟩
      rw [hTensors]
      exact ⟨grown, hGrown⟩
    have hCommit : j₁.view.CanCommit i op bs := by
      constructor
      case pending =>
        rw [hPending]
        exact hMem
      case oldest =>
        rw [hPending]
        exact hOldest
      case reads =>
        intro t hT
        exact hCommits.onChip t (List.mem_append_left _ hT)
      case writes => exact hCommits.places
      case awaited => exact hLeave.awaited hLegal hAwaited
    refine (settle_ensures hCommits hCommit (hPending ▸ hWindow)
      (hLeave.legal hLegal).toQueued hKnown₁).weaken ?_
    intro _ run₂ hRun₂
    rcases hRun₂ with ⟨hSound₂, hSteps₂, hPending₂, hAwaited₂⟩
    rw [hPending] at hPending₂
    exact ⟨hSound₂, hCommits.leave.steps.trans hSteps₂, hPending₂,
      hAwaited₂⟩

end Commit

end Systolic
