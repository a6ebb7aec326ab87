import Systolic.Proofs.Program.WellFormed
import Systolic.Proofs.Schedule.Step

/-
  This file proves what holds between the steps that schedule a
  program: the present bindings lie apart, the pending operations
  are those that are not committed, and what a pending operation
  reads is on the chip or has a copy in DRAM.

  Key definitions include:
    * `Binding.Clashes`
    * `View.Settled`
    * `View.Queued`
    * `View.Legal`

  Key theorems include:
    * `View.Legal.step`
    * `View.Legal.steps`
    * `View.legal_start`
-/

namespace Systolic

------------------------------------------------------------
-- Bindings
------------------------------------------------------------

/-
  Two bindings that cannot hold at the same time: those of one
  tensor, and those that meet in one memory.
-/
def Binding.Clashes (b c : Binding) : Prop :=
  b.tensor = c.tensor ∨ (b.kind = c.kind ∧ b.region.Overlaps c.region)

namespace View

/- The present bindings lie apart, and all are in order of time. -/
structure Settled (v : View) : Prop where
  suits : ∀ b, v.Present b → v.Suits b
  single :
    ∀ b c, v.Present b → v.Present c → b.tensor = c.tensor → b = c
  apart :
    ∀ b c, v.Present b → v.Present c → b.tensor ≠ c.tensor →
      b.kind = c.kind → ¬ b.region.Overlaps c.region
  started : ∀ b ∈ v.history, b.allocatedAt < v.position
  ended :
    ∀ b ∈ v.history, ∀ stop ∈ b.releasedAt, stop ≤ v.position
  lasting :
    ∀ b ∈ v.history, ∀ stop ∈ b.releasedAt, b.allocatedAt ≤ stop
  succession :
    v.history.Pairwise (fun b c =>
      b.Clashes c → ∃ stop ∈ b.releasedAt, stop ≤ c.allocatedAt)

section Bindings

variable {v v' : View} {t : TensorId} {b : Binding}
variable {time : Nat} {spilled : Bool}

theorem Suits.extend
    (hSuits : v.Suits b)
    (hTensors : v.tensors.Extends v'.tensors) :
    v'.Suits b := by
  rcases hSuits with ⟨tensor, hEntry, hKind, hSize⟩
  rcases hTensors _ tensor hEntry with ⟨grown, hGrown, hGrows⟩
  refine ⟨grown, hGrown, ?_, ?_⟩
  · rw [hGrows.kind_eq]
    exact hKind
  · rw [hGrows.layout_eq]
    exact hSize

theorem unread_congr
    (hPending : v'.pending = v.pending)
    (t : TensorId) :
    v'.Unread t ↔ v.Unread t := by
  unfold Unread
  rw [hPending]

theorem defined_congr
    (hPending : v'.pending = v.pending)
    (t : TensorId) :
    v'.Defined t ↔ v.Defined t := by
  unfold Defined
  rw [hPending]

theorem present_close
    (hHistory : v'.history = close v.history t time spilled) :
    v'.Present b ↔ v.Present b ∧ b.tensor ≠ t := by
  unfold Present
  rw [hHistory]
  constructor
  · intro hPresent
    rcases (mem_close_open hPresent.2).mp hPresent.1 with ⟨hMem, hNe⟩
    exact ⟨⟨hMem, hPresent.2⟩, hNe⟩
  · intro hPresent
    exact ⟨(mem_close_open hPresent.1.2).mpr ⟨hPresent.1.1, hPresent.2⟩,
      hPresent.1.2⟩

theorem onChip_close
    (hHistory : v'.history = close v.history t time spilled)
    (u : TensorId) :
    v'.OnChip u ↔ v.OnChip u ∧ u ≠ t := by
  unfold OnChip
  constructor
  · intro hOn
    rcases hOn with ⟨b, hPresent, rfl⟩
    rcases (present_close hHistory).mp hPresent with ⟨hOld, hNe⟩
    exact ⟨⟨b, hOld, rfl⟩, hNe⟩
  · intro hOn
    rcases hOn with ⟨⟨b, hPresent, rfl⟩, hNe⟩
    exact ⟨b, (present_close hHistory).mpr ⟨hPresent, hNe⟩, rfl⟩

theorem present_place
    {c : Binding}
    (hHistory : v'.history = v.history ++ [c])
    (hOpen : c.releasedAt = none) :
    v'.Present b ↔ v.Present b ∨ b = c := by
  unfold Present
  rw [hHistory, List.mem_append, List.mem_singleton]
  constructor
  · intro hPresent
    rcases hPresent with ⟨hOld | hNew, hNone⟩
    · exact .inl ⟨hOld, hNone⟩
    · exact .inr hNew
  · intro hPresent
    rcases hPresent with ⟨hOld, hNone⟩ | rfl
    · exact ⟨.inl hOld, hNone⟩
    · exact ⟨.inr rfl, hOpen⟩

/- More operations are done, and the bindings stay. -/
theorem Settled.mono
    (hSettled : v.Settled)
    (hHistory : v'.history = v.history)
    (hTensors : v.tensors.Extends v'.tensors)
    (hPosition : v.position ≤ v'.position) :
    v'.Settled := by
  have hPresent : ∀ b, v'.Present b ↔ v.Present b := by
    intro b
    unfold Present
    rw [hHistory]
  constructor
  case suits =>
    intro b hB
    exact (hSettled.suits b ((hPresent b).mp hB)).extend hTensors
  case single =>
    intro b c hB hC
    exact hSettled.single b c ((hPresent b).mp hB) ((hPresent c).mp hC)
  case apart =>
    intro b c hB hC
    exact hSettled.apart b c ((hPresent b).mp hB) ((hPresent c).mp hC)
  case started =>
    intro b hB
    rw [hHistory] at hB
    exact Nat.lt_of_lt_of_le (hSettled.started b hB) hPosition
  case ended =>
    intro b hB stop hStop
    rw [hHistory] at hB
    exact Nat.le_trans (hSettled.ended b hB stop hStop) hPosition
  case lasting =>
    rw [hHistory]
    exact hSettled.lasting
  case succession =>
    rw [hHistory]
    exact hSettled.succession

/- The present binding of a tensor ends. -/
theorem Settled.close
    (hSettled : v.Settled)
    (hHistory : v'.history = Systolic.close v.history t time spilled)
    (hTensors : v.tensors.Extends v'.tensors)
    (hPosition : v.position ≤ v'.position)
    (hFrom : v.position ≤ time + 1)
    (hTime : time ≤ v'.position) :
    v'.Settled := by
  have hPresent :
      ∀ b, v'.Present b → v.Present b :=
    fun b hB => ((present_close hHistory).mp hB).1
  constructor
  case suits =>
    intro b hB
    exact (hSettled.suits b (hPresent b hB)).extend hTensors
  case single =>
    intro b c hB hC
    exact hSettled.single b c (hPresent b hB) (hPresent c hC)
  case apart =>
    intro b c hB hC
    exact hSettled.apart b c (hPresent b hB) (hPresent c hC)
  case started =>
    intro b hB
    rw [hHistory, mem_close] at hB
    rcases hB with ⟨hOld, -⟩ | ⟨c, hC, -, -, rfl⟩
    · exact Nat.lt_of_lt_of_le (hSettled.started b hOld) hPosition
    · exact Nat.lt_of_lt_of_le (hSettled.started c hC) hPosition
  case ended =>
    intro b hB stop hStop
    rw [hHistory, mem_close] at hB
    rcases hB with ⟨hOld, -⟩ | ⟨c, -, -, -, rfl⟩
    · exact Nat.le_trans (hSettled.ended b hOld stop hStop) hPosition
    · cases hStop
      exact hTime
  case lasting =>
    intro b hB stop hStop
    rw [hHistory, mem_close] at hB
    rcases hB with ⟨hOld, -⟩ | ⟨c, hC, -, -, rfl⟩
    · exact hSettled.lasting b hOld stop hStop
    · cases hStop
      have hStarted := hSettled.started c hC
      change c.allocatedAt ≤ time
      omega
  case succession =>
    rw [hHistory, Systolic.close, List.pairwise_map]
    refine hSettled.succession.imp ?_
    intro b c hBefore hClash
    have hClashed : b.Clashes c := by
      split at hClash <;> split at hClash <;> exact hClash
    rcases hBefore hClashed with ⟨stop, hStop, hLe⟩
    -- A binding with a later one is already closed.
    have hClosed : ¬ (b.tensor = t ∧ b.releasedAt = none) := by
      intro hBoth
      rw [hBoth.2] at hStop
      cases hStop
    rw [if_neg hClosed]
    refine ⟨stop, hStop, ?_⟩
    split <;> exact hLe

/- A tensor that was off the chip gets a binding. -/
theorem Settled.place
    (hSettled : v.Settled)
    (hPlaces : v.Places t b)
    (hHistory : v'.history = v.history ++ [b])
    (hTensors : v'.tensors = v.tensors)
    (hPosition : v'.position = v.position + 1) :
    v'.Settled := by
  have hPresent : ∀ c, v'.Present c ↔ v.Present c ∨ c = b :=
    fun c => present_place hHistory hPlaces.opened
  have hSame : v.tensors.Extends v'.tensors := by
    rw [hTensors]
    exact .refl _
  have hOther : ∀ c, v.Present c → c.tensor ≠ b.tensor := by
    intro c hC hTensor
    rw [hPlaces.tensor_eq] at hTensor
    exact hPlaces.off ⟨c, hC, hTensor⟩
  constructor
  case suits =>
    intro c hC
    rcases (hPresent c).mp hC with hOld | rfl
    · exact (hSettled.suits c hOld).extend hSame
    · exact hPlaces.suits.extend hSame
  case single =>
    intro c d hC hD hTensor
    rcases (hPresent c).mp hC with hOldC | rfl <;>
      rcases (hPresent d).mp hD with hOldD | rfl
    · exact hSettled.single c d hOldC hOldD hTensor
    · exact absurd hTensor (hOther c hOldC)
    · exact absurd hTensor.symm (hOther d hOldD)
    · rfl
  case apart =>
    intro c d hC hD hNe hKind
    rcases (hPresent c).mp hC with hOldC | rfl <;>
      rcases (hPresent d).mp hD with hOldD | rfl
    · exact hSettled.apart c d hOldC hOldD hNe hKind
    · exact hPlaces.apart c hOldC hKind
    · intro hOverlaps
      exact hPlaces.apart d hOldD hKind.symm ⟨hOverlaps.2, hOverlaps.1⟩
    · exact absurd rfl hNe
  case started =>
    intro c hC
    rw [hHistory, List.mem_append, List.mem_singleton] at hC
    rw [hPosition]
    rcases hC with hOld | rfl
    · exact Nat.lt_succ_of_lt (hSettled.started c hOld)
    · rw [hPlaces.started]
      exact Nat.lt_succ_self _
  case ended =>
    intro c hC stop hStop
    rw [hHistory, List.mem_append, List.mem_singleton] at hC
    rw [hPosition]
    rcases hC with hOld | rfl
    · exact Nat.le_succ_of_le (hSettled.ended c hOld stop hStop)
    · rw [hPlaces.opened] at hStop
      cases hStop
  case lasting =>
    intro c hC stop hStop
    rw [hHistory, List.mem_append, List.mem_singleton] at hC
    rcases hC with hOld | rfl
    · exact hSettled.lasting c hOld stop hStop
    · rw [hPlaces.opened] at hStop
      cases hStop
  case succession =>
    rw [hHistory, List.pairwise_append]
    refine ⟨hSettled.succession, List.pairwise_singleton _ _, ?_⟩
    intro c hC d hD hClash
    rcases List.mem_singleton.mp hD with rfl
    cases hStop : c.releasedAt with
    | none =>
        rcases hClash with hTensor | ⟨hKind, hOverlaps⟩
        · exact absurd hTensor (hOther c ⟨hC, hStop⟩)
        · exact absurd hOverlaps (hPlaces.apart c ⟨hC, hStop⟩ hKind)
    | some stop =>
        rw [hPlaces.started]
        exact ⟨stop, rfl, hSettled.ended c hC stop hStop⟩

end Bindings

------------------------------------------------------------
-- Pending Operations
------------------------------------------------------------

/-
  The pending operations are those of the program that are not
  committed, in its order, and with an operation of the array
  all later ones of the array are pending.
-/
structure Queued
    (program : List Operation)
    (v : View) : Prop where
  listed :
    ∀ i op, (i, op) ∈ v.pending → program[i]? = some op
  sorted : v.pending.Pairwise (fun p q => p.1 < q.1)
  committed :
    ∀ i op, program[i]? = some op → (i, op) ∈ v.pending ∨ op ∈ v.done
  ordered :
    ∀ i op j op', (i, op) ∈ v.pending → op.resource = .compute →
      program[j]? = some op' → op'.resource = .compute → i < j →
        (j, op') ∈ v.pending

/- Without the operation of one place, all others stay. -/
theorem mem_eraseP_place
    {ops : List (Nat × Operation)}
    (hSorted : ops.Pairwise (fun p q => p.1 < q.1))
    {i : Nat}
    {p : Nat × Operation} :
    p ∈ ops.eraseP (fun q => q.1 = i) ↔ p ∈ ops ∧ p.1 ≠ i := by
  induction ops with
  | nil => simp
  | cons q qs ih =>
      rcases List.pairwise_cons.mp hSorted with ⟨hHead, hTail⟩
      by_cases hPlace : q.1 = i
      · rw [List.eraseP_cons_of_pos (by simpa using hPlace),
          List.mem_cons]
        constructor
        · intro hMem
          have hLater := hHead p hMem
          exact ⟨.inr hMem, by omega⟩
        · intro hMem
          rcases hMem with ⟨rfl | hMem, hNe⟩
          · exact absurd hPlace hNe
          · exact hMem
      · rw [List.eraseP_cons_of_neg (by simpa using hPlace),
          List.mem_cons, List.mem_cons, ih hTail]
        constructor
        · intro hMem
          rcases hMem with rfl | ⟨hMem, hNe⟩
          · exact ⟨.inl rfl, hPlace⟩
          · exact ⟨.inr hMem, hNe⟩
        · intro hMem
          rcases hMem with ⟨rfl | hMem, hNe⟩
          · exact .inl rfl
          · exact .inr ⟨hMem, hNe⟩

section Queue

variable {program : List Operation} {v v' : View}
variable {i : Nat} {op : Operation}

theorem Queued.mono
    (hQueued : v.Queued program)
    (hPending : v'.pending = v.pending)
    (hDone : ∀ op ∈ v.done, op ∈ v'.done) :
    v'.Queued program := by
  constructor
  case listed =>
    rw [hPending]
    exact hQueued.listed
  case sorted =>
    rw [hPending]
    exact hQueued.sorted
  case committed =>
    intro i op hGet
    rw [hPending]
    rcases hQueued.committed i op hGet with hWaits | hDid
    · exact .inl hWaits
    · exact .inr (hDone op hDid)
  case ordered =>
    rw [hPending]
    exact hQueued.ordered

section

variable (hQueued : v.Queued program) (hMem : (i, op) ∈ v.pending)
include hQueued hMem

/- A pending operation stands between others that stay pending. -/
theorem Queued.split :
    ∃ front back,
      v.pending = front ++ (i, op) :: back ∧
      v.pending.eraseP (fun p => p.1 = i) = front ++ back := by
  rcases List.exists_of_eraseP (p := fun p => p.1 = i) hMem (by simp) with
    ⟨⟨k, first⟩, front, back, -, hPlace, hSplit, hErase⟩
  have hSame : k = i := of_decide_eq_true hPlace
  subst hSame
  have hFirst : (k, first) ∈ v.pending := by
    rw [hSplit]
    exact List.mem_append_right _ List.mem_cons_self
  have hListed := (hQueued.listed k first hFirst).symm.trans
    (hQueued.listed k op hMem)
  cases Option.some.inj hListed
  exact ⟨front, back, hSplit, hErase⟩

/- An operation commits, on the array only the oldest one. -/
theorem Queued.retire
    (hOldest :
      op.resource = .compute →
        ∀ p ∈ v.pending, p.2.resource = .compute → i ≤ p.1)
    (hPending : v'.pending = v.pending.eraseP (fun p => p.1 = i))
    (hDone : v'.done = v.done ++ [op]) :
    v'.Queued program := by
  have hRest :
      ∀ p, p ∈ v'.pending ↔ p ∈ v.pending ∧ p.1 ≠ i := by
    intro p
    rw [hPending]
    exact mem_eraseP_place hQueued.sorted
  constructor
  case listed =>
    intro j op' hJ
    exact hQueued.listed j op' ((hRest _).mp hJ).1
  case sorted =>
    rw [hPending]
    exact hQueued.sorted.sublist List.eraseP_sublist
  case committed =>
    intro j op' hGet
    rw [hDone, List.mem_append, List.mem_singleton]
    rcases hQueued.committed j op' hGet with hWaits | hDid
    · by_cases hSame : j = i
      · subst hSame
        have hBoth := hGet.symm.trans (hQueued.listed j op hMem)
        exact .inr (.inr (Option.some.inj hBoth))
      · exact .inl ((hRest _).mpr ⟨hWaits, hSame⟩)
    · exact .inr (.inl hDid)
  case ordered =>
    intro j op' k op'' hJ hCompute hGet hCompute' hLater
    rcases (hRest _).mp hJ with ⟨hWaits, -⟩
    have hK := hQueued.ordered j op' k op'' hWaits hCompute hGet hCompute'
      hLater
    refine (hRest _).mpr ⟨hK, ?_⟩
    intro hSame
    have hBoth := hGet.symm.trans (hSame ▸ hQueued.listed i op hMem)
    have hOp : op.resource = .compute := by
      rw [← Option.some.inj hBoth]
      exact hCompute'
    have hLe := hOldest hOp (j, op') hWaits hCompute
    simp only at hLe hSame
    omega

/- What an operation does not read, another one still reads. -/
theorem Queued.unread_of_committed
    {bs : List Binding}
    {t : TensorId}
    (hOther : t ∉ op.reads)
    (hUnread : (v.committed i op bs).Unread t) :
    v.Unread t := by
  intro p hP hReads
  by_cases hSame : p.1 = i
  · have hBoth := (hQueued.listed p.1 p.2 hP).symm.trans
      (hSame ▸ hQueued.listed i op hMem)
    rw [Option.some.inj hBoth] at hReads
    exact hOther hReads
  · exact hUnread p ((mem_eraseP_place hQueued.sorted).mpr ⟨hP, hSame⟩)
      hReads

end

end Queue

------------------------------------------------------------
-- Legal Views
------------------------------------------------------------

/-
  What holds between the steps that schedule a program. What a
  pending operation reads is on the chip or has a copy in DRAM,
  once it is defined.
-/
structure Legal
    (program : List Operation)
    (v : View) : Prop
    extends v.Settled, v.Queued program where
  defined : ∀ b, v.Present b → v.Defined b.tensor
  available :
    ∀ p ∈ v.pending, ∀ t ∈ p.2.reads, v.Defined t →
      v.OnChip t ∨
        ∃ tensor, v.tensors.Holds t .scratchpad tensor ∧
          tensor.dramCopy.isSome

section Legality

variable {program : List Operation} {v v' : View} {t : TensorId}
variable {bs : List Binding} {op : Operation}

/- A copy in DRAM stays while the table grows. -/
theorem holds_dramCopy_extend
    {old new : TensorTable}
    (hExtends : old.Extends new)
    (hCopy :
      ∃ tensor, old.Holds t .scratchpad tensor ∧
        tensor.dramCopy.isSome) :
    ∃ tensor, new.Holds t .scratchpad tensor ∧
      tensor.dramCopy.isSome := by
  rcases hCopy with ⟨tensor, hHolds, hCopy⟩
  rcases hHolds.extend hExtends with ⟨grown, hGrown, hGrows⟩
  exact ⟨grown, hGrown, hGrows.isSome_dramCopy hCopy⟩

/- What is common to both ways to leave the chip. -/
structure Departs
    (v : View)
    (t : TensorId)
    (v' : View) : Prop where
  history : v'.history = close v.history t v.position true
  pending : v'.pending = v.pending
  tensors : v.tensors.Extends v'.tensors
  position : v.position ≤ v'.position
  done : ∀ op ∈ v.done, op ∈ v'.done
  copy :
    ∃ tensor, v'.tensors.Holds t .scratchpad tensor ∧
      tensor.dramCopy.isSome

/- A tensor without a copy in DRAM gets a place to wait in. -/
theorem extends_spilled
    {table : TensorTable}
    {tensor : Tensor}
    (hEntry : table.get? t = some tensor)
    (hCopy : tensor.dramCopy = none)
    (l : DramLocation) :
    table.Extends (table.modify t (·.setSlot .spilled (some l))) := by
  apply TensorTable.extends_modify
  intro tensor' hEntry'
  cases hEntry.symm.trans hEntry'
  have hNone : tensor.spilled = none := (Option.or_eq_none_iff.mp hCopy).1
  exact ⟨rfl, rfl, rfl, fun l hL => hL, by simp [hNone]⟩

theorem Leaves.departs
    (hSettled : v.Settled)
    (hLeaves : v.Leaves t v') :
    v.Departs t v' := by
  cases hLeaves with
  | @copied b tensor hPresent hTensor hKind hEntry hCopy =>
      subst hTensor
      rcases hSettled.suits b hPresent with ⟨tensor', hEntry', hSame, -⟩
      cases hEntry.symm.trans hEntry'
      exact ⟨rfl, rfl, .refl _, Nat.le_refl _, fun op hOp => hOp,
        tensor, ⟨hEntry, hSame.symm.trans hKind⟩, hCopy⟩
  | @stored b tensor hPresent hTensor hKind hEntry hCopy hFits =>
      subst hTensor
      rcases hSettled.suits b hPresent with ⟨tensor', hEntry', hSame, -⟩
      cases hEntry.symm.trans hEntry'
      constructor
      case history => rfl
      case pending => rfl
      case tensors => exact extends_spilled hEntry hCopy _
      case position => simp [position]
      case done => exact fun op hOp => List.mem_append_left _ hOp
      case copy =>
        refine ⟨tensor.setSlot .spilled
          (some { bank := .dram0, address := v.dram.used .dram0 }),
          ⟨?_, hSame.symm.trans hKind⟩, rfl⟩
        simp only [TensorTable.get?_modify, if_true, hEntry,
          Option.map_some]

/- A tensor that leaves can be brought back. -/
theorem Legal.leave
    (hLegal : v.Legal program)
    (hLeaves : v.Leaves t v') :
    v'.Legal program := by
  have hDeparts := hLeaves.departs hLegal.toSettled
  have hSettled := hLegal.toSettled.close hDeparts.history
    hDeparts.tensors hDeparts.position (Nat.le_succ _) hDeparts.position
  have hQueued := hLegal.toQueued.mono hDeparts.pending hDeparts.done
  have hDefined : ∀ u, v'.Defined u ↔ v.Defined u :=
    defined_congr hDeparts.pending
  refine { hSettled, hQueued with defined := ?_, available := ?_ }
  · intro b hB
    rcases (present_close hDeparts.history).mp hB with ⟨hOld, -⟩
    exact (hDefined _).mpr (hLegal.defined b hOld)
  · intro p hP u hReads hU
    rw [hDeparts.pending] at hP
    rcases hLegal.available p hP u hReads ((hDefined u).mp hU) with
      hOn | hCopy
    · by_cases hSame : u = t
      · subst hSame
        exact .inr hDeparts.copy
      · exact .inl ((onChip_close hDeparts.history u).mpr ⟨hOn, hSame⟩)
    · exact .inr (holds_dramCopy_extend hDeparts.tensors hCopy)

/- A tensor that nothing reads can be dropped. -/
theorem Legal.drop
    {time : Nat}
    (hLegal : v.Legal program)
    (hUnread : v.Unread t)
    (hFrom : v.position ≤ time + 1)
    (hTime : time ≤ v.position) :
    Legal program
      { v with history := close v.history t time false } := by
  let v' : View := { v with history := close v.history t time false }
  have hHistory : v'.history = close v.history t time false := rfl
  have hSettled := hLegal.toSettled.close hHistory (.refl _)
    (Nat.le_refl _) hFrom hTime
  have hQueued : v'.Queued program :=
    hLegal.toQueued.mono rfl (fun op hOp => hOp)
  refine { hSettled, hQueued with defined := ?_, available := ?_ }
  · intro b hB
    exact hLegal.defined b ((present_close hHistory).mp hB).1
  · intro p hP u hReads hU
    rcases hLegal.available p hP u hReads hU with hOn | hCopy
    · left
      refine (onChip_close hHistory u).mpr ⟨hOn, ?_⟩
      intro hSame
      exact hUnread p hP (hSame ▸ hReads)
    · exact .inr hCopy

theorem onChip_append
    (hHistory : v'.history = v.history ++ bs)
    (hOn : v.OnChip t) :
    v'.OnChip t := by
  rcases hOn with ⟨b, ⟨hMem, hOpen⟩, hTensor⟩
  refine ⟨b, ⟨?_, hOpen⟩, hTensor⟩
  rw [hHistory]
  exact List.mem_append_left _ hMem

/- A tensor that comes back is on the chip. -/
theorem Legal.reload
    {b : Binding}
    (hLegal : v.Legal program)
    (hPlaces : v.Places t b)
    (hDefined : v.Defined t) :
    Legal program
      { v with
        history := v.history ++ [b]
        done := v.done ++ [op] } := by
  let v' : View :=
    { v with history := v.history ++ [b], done := v.done ++ [op] }
  have hHistory : v'.history = v.history ++ [b] := rfl
  have hPosition : v'.position = v.position + 1 := by
    simp [v', position]
  have hSettled :=
    hLegal.toSettled.place hPlaces hHistory rfl hPosition
  have hQueued : v'.Queued program :=
    hLegal.toQueued.mono rfl (fun o hO => List.mem_append_left _ hO)
  refine { hSettled, hQueued with defined := ?_, available := ?_ }
  · intro c hC
    rcases (present_place hHistory hPlaces.opened).mp hC with hOld | rfl
    · exact hLegal.defined c hOld
    · rw [hPlaces.tensor_eq]
      exact hDefined
  · intro p hP u hReads hU
    rcases hLegal.available p hP u hReads hU with hOn | hCopy
    · exact .inl (onChip_append hHistory hOn)
    · exact .inr hCopy

/- The bindings for what an operation writes: none or one. -/
theorem places_cases
    {writes : Option TensorId}
    (hWrites : List.Forall₂ v.Places writes.toList bs) :
    (writes = none ∧ bs = []) ∨
      ∃ t b, writes = some t ∧ bs = [b] ∧ v.Places t b := by
  cases writes with
  | none =>
      cases hWrites
      exact .inl ⟨rfl, rfl⟩
  | some t =>
      rcases List.forall₂_cons_left_iff.mp hWrites with
        ⟨b, rest, hPlaces, hRest, rfl⟩
      cases hRest
      exact .inr ⟨t, b, rfl, rfl, hPlaces⟩

theorem CanCommit.places
    {i : Nat}
    {b : Binding}
    (hCommit : v.CanCommit i op [b])
    (hResult : op.writes = some t) :
    v.Places t b := by
  rcases places_cases hCommit.writes with
    ⟨-, hNone⟩ | ⟨u, c, hU, hC, hPlaces⟩
  · cases hNone
  · cases hC
    cases hU.symm.trans hResult
    exact hPlaces

section

variable (hSingle : SingleAssignment program) (hLegal : v.Legal program)
include hSingle hLegal

/- What an operation writes is on the chip once it commits. -/
theorem Legal.commit
    {i : Nat}
    (hCommit : v.CanCommit i op bs) :
    (v.committed i op bs).Legal program := by
  have hMem := hCommit.pending
  have hWrites := hCommit.writes
  let v' := v.committed i op bs
  have hQueued : v'.Queued program :=
    hLegal.toQueued.retire hMem hCommit.oldest rfl rfl
  have hRest : ∀ p, p ∈ v'.pending ↔ p ∈ v.pending ∧ p.1 ≠ i :=
    fun p => mem_eraseP_place hLegal.sorted
  have hPosition : v'.position = v.position + 1 := by
    simp [v', committed, position]
  have hSettled : v'.Settled := by
    rcases places_cases hWrites with ⟨-, rfl⟩ | ⟨t, b, -, rfl, hPlaces⟩
    · refine hLegal.toSettled.mono (List.append_nil _) (.refl _) ?_
      omega
    · exact hLegal.toSettled.place hPlaces rfl rfl hPosition
  refine { hSettled, hQueued with defined := ?_, available := ?_ }
  · intro c hC p hP
    have hOldCase : v.Present c → p.2.writes ≠ some c.tensor :=
      fun hOld => hLegal.defined c hOld p ((hRest p).mp hP).1
    rcases places_cases hWrites with
      ⟨-, rfl⟩ | ⟨t, b, hT, rfl, hPlaces⟩
    · apply hOldCase
      rcases hC with ⟨hIn, hOpen⟩
      exact ⟨by simpa [v', committed] using hIn, hOpen⟩
    · rcases (present_place rfl hPlaces.opened).mp hC with hOld | rfl
      · exact hOldCase hOld
      · -- The writer of the new binding is no longer pending.
        intro hAgain
        rcases (hRest p).mp hP with ⟨hWaits, hNe⟩
        rw [hPlaces.tensor_eq] at hAgain
        exact hNe (hSingle.writer_unique (hLegal.listed _ _ hWaits)
          (hLegal.listed _ _ hMem) hAgain hT)
  · intro p hP u hReads hU
    rcases (hRest p).mp hP with ⟨hWaits, -⟩
    by_cases hWrote : op.writes = some u
    · rcases places_cases hWrites with
        ⟨hNone, -⟩ | ⟨t, b, hT, rfl, hPlaces⟩
      · cases hNone.symm.trans hWrote
      · cases hT.symm.trans hWrote
        exact .inl ⟨b, (present_place rfl hPlaces.opened).mpr (.inr rfl),
          hPlaces.tensor_eq⟩
    · have hDefined : v.Defined u := by
        intro q hQ
        by_cases hSame : q.1 = i
        · have hBoth := (hLegal.listed q.1 q.2 hQ).symm.trans
            (hSame ▸ hLegal.listed i op hMem)
          rw [Option.some.inj hBoth]
          exact hWrote
        · exact hU q ((hRest q).mpr ⟨hQ, hSame⟩)
      rcases hLegal.available p hWaits u hReads hDefined with hOn | hCopy
      · exact .inl (onChip_append rfl hOn)
      · exact .inr hCopy

/- Every step of a scheduler keeps a view legal. -/
theorem Legal.step
    (hStep : v.Step v') :
    v'.Legal program := by
  cases hStep with
  | leave hLeaves => exact hLegal.leave hLeaves
  | reload hPlaces _ _ _ hDefined _ =>
      exact hLegal.reload hPlaces hDefined
  | commit hCommit => exact hLegal.commit hSingle hCommit
  | drop _ hUnread =>
      exact hLegal.drop hUnread (by omega) (Nat.sub_le _ _)

theorem Legal.steps
    (hSteps : v.Steps v') :
    v'.Legal program := by
  induction hSteps with
  | refl => exact hLegal
  | tail _ hStep ih => exact ih.step hSingle hStep

end

/- Tensors only get places in DRAM. -/
theorem Step.extends
    (hSettled : v.Settled)
    (hStep : v.Step v') :
    v.tensors.Extends v'.tensors := by
  cases hStep with
  | leave hLeaves => exact (hLeaves.departs hSettled).tensors
  | reload => exact .refl _
  | commit => exact .refl _
  | drop => exact .refl _

theorem Steps.extends
    (hSingle : SingleAssignment program)
    (hLegal : v.Legal program)
    (hSteps : v.Steps v') :
    v.tensors.Extends v'.tensors := by
  induction hSteps with
  | refl => exact .refl _
  | tail hFirst hStep ih =>
      have hBefore := hLegal.steps hSingle hFirst
      exact ih.trans (hStep.extends hBefore.toSettled)

end Legality

end View

------------------------------------------------------------
-- Start
------------------------------------------------------------

namespace View

theorem mem_pending_start
    {bench : Workbench}
    {program : List Operation}
    {i : Nat}
    {op : Operation} :
    (i, op) ∈ (start bench program).pending ↔ program[i]? = some op :=
  mem_located

/- Nothing is wrong before the first step. -/
theorem legal_start
    {program : List Operation}
    (hSingle : SingleAssignment program)
    (bench : Workbench) :
    (start bench program).Legal program := by
  have hNone : ∀ b, ¬ (start bench program).Present b := by
    intro b hPresent
    cases hPresent.1
  constructor
  case toSettled =>
    constructor
    case suits => exact fun b hB => absurd hB (hNone b)
    case single => exact fun b c hB => absurd hB (hNone b)
    case apart => exact fun b c hB => absurd hB (hNone b)
    all_goals simp [start]
  case toQueued =>
    constructor
    case listed => exact fun i op => mem_pending_start.mp
    case sorted => exact pairwise_located program
    case committed =>
      exact fun i op hGet => .inl (mem_pending_start.mpr hGet)
    case ordered =>
      exact fun i op j op' _ _ hGet _ _ => mem_pending_start.mpr hGet
  case defined => exact fun b hB => absurd hB (hNone b)
  case available =>
    intro p hP t hReads hDefined
    rcases hSingle.exists_writer (mem_pending_start.mp hP) hReads with
      ⟨j, op', -, hGet, hWrites⟩
    exact absurd hWrites (hDefined (j, op') (mem_pending_start.mpr hGet))

end View

end Systolic
