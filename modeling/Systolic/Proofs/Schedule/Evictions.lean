import Systolic.Proofs.Compile.Stages
import Systolic.Proofs.Lowering.Discipline
import Systolic.Proofs.Schedule.Trace

/-
  This file balances what a schedule moves off the chip and back.
  Each operation that writes a tensor opens one binding of it. A
  tensor that nothing reads any more is dropped at once, so all
  its bindings but the last end by an eviction, and a reload
  follows each of them. A tensor is stored at its first eviction,
  unless it has a home.

  Key definitions include:
    * `View.Accounted`
    * `View.Evicts`
    * `View.Stashes`
    * `Memory.Balances`

  Key theorems include:
    * `View.Accounted.step`
    * `View.Evicts.step`
    * `View.Stashes.step`
    * `Workbench.schedule_balances`
-/

namespace Systolic

------------------------------------------------------------
-- Operations and What They Write
------------------------------------------------------------

theorem written_cons
    (op : Operation)
    (ops : List Operation) :
    written (op :: ops) = op.writes.toList ++ written ops := by
  unfold written
  cases hWrites : op.writes <;> simp [hWrites]

theorem written_append
    (ops ops' : List Operation) :
    written (ops ++ ops') = written ops ++ written ops' :=
  List.filterMap_append

theorem written_singleton (op : Operation) :
    written [op] = op.writes.toList := by
  rw [written_cons]
  exact List.append_nil _

/- The tensor that an operation brings back. -/
def Operation.reloads : Operation → Option TensorId
| .reload t => some t
| _ => none

/- The tensors that operations bring back. -/
def reloaded (ops : List Operation) : List TensorId :=
  ops.filterMap Operation.reloads

/- A tensor is written again only by what brings it back. -/
theorem written_perm (ops : List Operation) :
    (written ops).Perm
      (written (ops.filter (fun op => !op.isMove)) ++ reloaded ops) := by
  induction ops with
  | nil => exact .refl _
  | cons op ops ih =>
      rw [written_cons]
      cases op with
      | spill u => exact ih
      | reload u => exact (ih.cons u).trans List.perm_middle.symm
      | _ =>
          rw [List.filter_cons_of_pos rfl, written_cons, List.append_assoc]
          exact ih.append_left _

theorem count_reloaded
    (ops : List Operation)
    (t : TensorId) :
    (reloaded ops).count t = ops.count (.reload t) := by
  rw [reloaded, List.count_filterMap, List.count]
  apply List.countP_congr
  intro op _
  cases op <;> simp [Operation.reloads]

/- A program writes each tensor once. -/
theorem SingleAssignment.nodup_written
    {ops : List Operation}
    (hSingle : SingleAssignment ops) :
    (written ops).Nodup := by
  unfold written List.Nodup
  rw [List.pairwise_filterMap, List.pairwise_iff_getElem]
  intro i j hI hJ hLt t hWrites t' hWrites' hSame
  subst hSame
  have hPlace := hSingle.writer_unique (List.getElem?_eq_getElem hI)
    (List.getElem?_eq_getElem hJ) hWrites hWrites'
  omega

theorem map_tensor_close
    (history : List Binding)
    (t : TensorId)
    (time : Nat)
    (spilled : Bool) :
    (close history t time spilled).map (·.tensor) =
      history.map (·.tensor) := by
  rw [close, List.map_map]
  apply List.map_congr_left
  intro b _
  simp only [Function.comp_apply]
  split <;> rfl

namespace View

variable {program : List Operation} {v v' : View} {t : TensorId}
variable {op : Operation} {time i : Nat} {spilled : Bool}
variable {bs : List Binding}

------------------------------------------------------------
-- Bindings and Operations
------------------------------------------------------------

/-
  Every binding belongs to a committed operation that writes its
  tensor. Without the moves, the committed operations are those
  of the program that are not pending.
-/
structure Accounted
    (program : List Operation)
    (v : View) : Prop where
  shared :
    (v.done.filter (fun op => !op.isMove) ++
      v.pending.map Prod.snd).Perm program
  bound : v.history.map (·.tensor) = written v.done
  known : ∀ t ∈ written v.done, t ∈ written program
  defined : ∀ t ∈ written v.done, v.Defined t

theorem Accounted.close
    (hAccounted : v.Accounted program)
    (hHistory : v'.history = Systolic.close v.history t time spilled)
    (hPending : v'.pending = v.pending)
    (hDone : v'.done = v.done ∨ v'.done = v.done ++ [.spill t]) :
    v'.Accounted program := by
  have hPlain :
      v'.done.filter (fun op => !op.isMove) =
        v.done.filter (fun op => !op.isMove) := by
    rcases hDone with hDone | hDone <;>
      simp [hDone, List.filter_append, Operation.isMove]
  have hWritten : written v'.done = written v.done := by
    rcases hDone with hDone | hDone <;>
      simp [hDone, written_append, written_singleton, Operation.writes]
  constructor
  case shared =>
    rw [hPlain, hPending]
    exact hAccounted.shared
  case bound =>
    rw [hHistory, map_tensor_close, hWritten]
    exact hAccounted.bound
  case known =>
    rw [hWritten]
    exact hAccounted.known
  case defined =>
    intro u hU
    rw [hWritten] at hU
    exact (defined_congr hPending u).mpr (hAccounted.defined u hU)

theorem Accounted.reload
    {b : Binding}
    (hAccounted : v.Accounted program)
    (hTensor : b.tensor = t)
    (hKnown : t ∈ written program)
    (hDefined : v.Defined t) :
    Accounted program
      { v with
        history := v.history ++ [b]
        done := v.done ++ [.reload t] } := by
  have hWritten : written (v.done ++ [.reload t]) = written v.done ++ [t] := by
    rw [written_append, written_singleton]
    rfl
  have hCases : ∀ u ∈ written (v.done ++ [.reload t]),
      u ∈ written v.done ∨ u = t := by
    intro u hU
    rw [hWritten, List.mem_append, List.mem_singleton] at hU
    exact hU
  constructor
  case shared =>
    have hPlain :
        (v.done ++ [Operation.reload t]).filter (fun op => !op.isMove) =
          v.done.filter (fun op => !op.isMove) := by
      simp [List.filter_append, Operation.isMove]
    rw [hPlain]
    exact hAccounted.shared
  case bound =>
    rw [List.map_append, hAccounted.bound, hWritten, List.map_singleton,
      hTensor]
  case known =>
    intro u hU
    rcases hCases u hU with hOld | rfl
    · exact hAccounted.known u hOld
    · exact hKnown
  case defined =>
    intro u hU
    rcases hCases u hU with hOld | rfl
    · exact hAccounted.defined u hOld
    · exact hDefined

/- Without the operation of one place, all other operations stay. -/
theorem Queued.perm_retire
    (hQueued : v.Queued program)
    (hMem : (i, op) ∈ v.pending) :
    (v.pending.map Prod.snd).Perm
      (op :: (v.pending.eraseP (fun p => p.1 = i)).map Prod.snd) := by
  rcases hQueued.split hMem with ⟨front, back, hSplit, hErase⟩
  rw [hErase, hSplit, List.map_append, List.map_append, List.map_cons]
  exact List.perm_middle

theorem Accounted.commit
    (hSingle : SingleAssignment program)
    (hPlain : ∀ op ∈ program, op.isMove = false)
    (hQueued : v.Queued program)
    (hAccounted : v.Accounted program)
    (hCommit : v.CanCommit i op bs) :
    (v.committed i op bs).Accounted program := by
  have hMem := hCommit.pending
  have hListed := hQueued.listed i op hMem
  have hOp := List.mem_of_getElem? hListed
  have hBound : bs.map (·.tensor) = op.writes.toList := by
    rcases places_cases hCommit.writes with
      ⟨hNone, rfl⟩ | ⟨t, b, hT, rfl, hPlaces⟩
    · rw [hNone]
      rfl
    · rw [hT, List.map_singleton, hPlaces.tensor_eq]
      rfl
  have hCases :
      ∀ u ∈ written (v.done ++ [op]),
        u ∈ written v.done ∨ op.writes = some u := by
    intro u hU
    rw [written_append, written_singleton, List.mem_append,
      Option.mem_toList] at hU
    exact hU
  constructor
  case shared =>
    have hKept :
        (v.done ++ [op]).filter (fun op => !op.isMove) =
          v.done.filter (fun op => !op.isMove) ++ [op] := by
      simp [List.filter_append, hPlain op hOp]
    simp only [committed, hKept, List.append_assoc]
    exact ((hQueued.perm_retire hMem).symm.append_left _).trans
      hAccounted.shared
  case bound =>
    simp only [committed, List.map_append, written_append,
      written_singleton, hBound, hAccounted.bound]
  case known =>
    intro u hU
    rcases hCases u hU with hOld | hWrites
    · exact hAccounted.known u hOld
    · exact List.mem_filterMap.mpr ⟨op, hOp, hWrites⟩
  case defined =>
    intro u hU p hP hAgain
    rcases (mem_eraseP_place hQueued.sorted).mp hP with ⟨hWaits, hNe⟩
    rcases hCases u hU with hOld | hWrites
    · exact hAccounted.defined u hOld p hWaits hAgain
    · exact hNe (hSingle.writer_unique (hQueued.listed _ _ hWaits)
        hListed hAgain hWrites)

/- Every step enters a binding with what is written. -/
theorem Accounted.step
    (hSingle : SingleAssignment program)
    (hPlain : ∀ op ∈ program, op.isMove = false)
    (hLegal : v.Legal program)
    (hAccounted : v.Accounted program)
    (hStep : v.Step v') :
    v'.Accounted program := by
  cases hStep with
  | leave hLeaves =>
      cases hLeaves with
      | copied => exact hAccounted.close rfl rfl (.inl rfl)
      | stored => exact hAccounted.close rfl rfl (.inr rfl)
  | reload hPlaces _ _ _ hDefined hRead =>
      refine hAccounted.reload hPlaces.tensor_eq ?_ hDefined
      unfold Unread at hRead
      push Not at hRead
      rcases hRead with ⟨⟨i, op⟩, hP, hReads⟩
      exact hSingle.mem_written
        (List.mem_of_getElem? (hLegal.listed i op hP)) hReads
  | commit hCommit =>
      exact hAccounted.commit hSingle hPlain hLegal.toQueued hCommit
  | drop => exact hAccounted.close rfl rfl (.inl rfl)

theorem accounted_start
    (bench : Workbench)
    (program : List Operation) :
    (start bench program).Accounted program := by
  constructor
  case shared =>
    have hAll : (start bench program).pending.map Prod.snd = program :=
      map_snd_located program
    rw [hAll]
    exact .refl _
  case bound => rfl
  case known => simp [start, written]
  case defined => simp [start, written]

------------------------------------------------------------
-- Evictions
------------------------------------------------------------

/-
  How bindings end. One that is followed by another one of its
  tensor was evicted. One that ended otherwise was dropped, since
  nothing reads its tensor any more, and of each such tensor
  there is one.
-/
structure Evicts (v : View) : Prop where
  kept : ∀ b, v.Present b → b.spilled = false
  replaced :
    v.history.Pairwise (fun b c =>
      b.tensor = c.tensor → b.spilled = true)
  dropped :
    ∀ b ∈ v.history, b.releasedAt.isSome → b.spilled = false →
      v.Unread b.tensor
  unspilled :
    ∀ b ∈ v.history, v.Unread b.tensor →
      ∃ c ∈ v.history, c.tensor = b.tensor ∧ c.spilled = false

/- A binding is evicted exactly if its tensor is still read. -/
theorem Evicts.close
    (hEvicts : v.Evicts)
    (hHistory : v'.history = Systolic.close v.history t time spilled)
    (hPending : v'.pending = v.pending)
    (hEnd : spilled = false ↔ v.Unread t) :
    v'.Evicts := by
  have hUnread : ∀ u, v'.Unread u ↔ v.Unread u := unread_congr hPending
  constructor
  case kept =>
    intro b hB
    exact hEvicts.kept b ((present_close hHistory).mp hB).1
  case replaced =>
    rw [hHistory, Systolic.close, List.pairwise_map]
    refine hEvicts.replaced.imp_of_mem ?_
    intro b c hB hC hBefore hTensor
    have hSame : b.tensor = c.tensor := by
      split at hTensor <;> split at hTensor <;> exact hTensor
    -- A binding with a later one is already closed.
    have hClosed : ¬ (b.tensor = t ∧ b.releasedAt = none) := by
      intro hBoth
      have hOpen := hEvicts.kept b ⟨hB, hBoth.2⟩
      cases hOpen.symm.trans (hBefore hSame)
    rw [if_neg hClosed]
    exact hBefore hSame
  case dropped =>
    intro b hB hStop hFlag
    rw [hUnread]
    rw [hHistory, mem_close] at hB
    rcases hB with ⟨hOld, -⟩ | ⟨c, -, hTensor, -, rfl⟩
    · exact hEvicts.dropped b hOld hStop hFlag
    · change v.Unread c.tensor
      rw [hTensor]
      exact hEnd.mp hFlag
  case unspilled =>
    intro b hB hNone
    rw [hUnread] at hNone
    have hOld : ∃ c ∈ v.history, c.tensor = b.tensor := by
      have hTensors := List.mem_map_of_mem (f := (·.tensor)) hB
      rw [hHistory, map_tensor_close] at hTensors
      exact List.mem_map.mp hTensors
    rcases hOld with ⟨first, hFirst, hTensor⟩
    rcases hEvicts.unspilled first hFirst (hTensor ▸ hNone) with
      ⟨c, hC, hSame, hFlag⟩
    rw [hHistory]
    by_cases hOpen : c.tensor = t ∧ c.releasedAt = none
    · refine ⟨{ c with releasedAt := some time, spilled },
        mem_close.mpr (.inr ⟨c, hC, hOpen.1, hOpen.2, rfl⟩),
        hSame.trans hTensor, ?_⟩
      apply hEnd.mpr
      rw [← hOpen.1, hSame, hTensor]
      exact hNone
    · exact ⟨c, mem_close.mpr (.inl ⟨hC, hOpen⟩), hSame.trans hTensor,
        hFlag⟩

/- Fewer operations are pending, and what they read stays. -/
theorem Evicts.retire
    (hEvicts : v.Evicts)
    (hHistory : v'.history = v.history)
    (hPending : ∀ p ∈ v'.pending, p ∈ v.pending)
    (hReads : ∀ u, v'.Unread u → v.Unread u ∨ v.OnChip u) :
    v'.Evicts := by
  constructor
  case kept =>
    intro b hB
    unfold Present at hB
    rw [hHistory] at hB
    exact hEvicts.kept b hB
  case replaced =>
    rw [hHistory]
    exact hEvicts.replaced
  case dropped =>
    intro b hB hStop hFlag p hP
    rw [hHistory] at hB
    exact hEvicts.dropped b hB hStop hFlag p (hPending p hP)
  case unspilled =>
    intro b hB hNone
    rw [hHistory] at hB ⊢
    rcases hReads b.tensor hNone with hNone | ⟨c, hC, hTensor⟩
    · exact hEvicts.unspilled b hB hNone
    · exact ⟨c, hC.1, hTensor, hEvicts.kept c hC⟩

/- A new binding of a tensor follows evicted ones only. -/
theorem Evicts.place
    {b : Binding}
    (hEvicts : v.Evicts)
    (hPlaces : v.Places t b)
    (hHistory : v'.history = v.history ++ [b])
    (hPending : v'.pending = v.pending)
    (hEarlier : ∀ c ∈ v.history, c.tensor = t → ¬ v.Unread t) :
    v'.Evicts := by
  have hUnread : ∀ u, v'.Unread u ↔ v.Unread u := unread_congr hPending
  constructor
  case kept =>
    intro c hC
    rcases (present_place hHistory hPlaces.opened).mp hC with hOld | rfl
    · exact hEvicts.kept c hOld
    · exact hPlaces.unspilled
  case replaced =>
    rw [hHistory, List.pairwise_append]
    refine ⟨hEvicts.replaced, List.pairwise_singleton _ _, ?_⟩
    intro c hC d hD hTensor
    rw [List.mem_singleton.mp hD, hPlaces.tensor_eq] at hTensor
    by_contra hKept
    have hFlag : c.spilled = false := Bool.eq_false_iff.mpr hKept
    cases hStop : c.releasedAt with
    | none => exact hPlaces.off ⟨c, ⟨hC, hStop⟩, hTensor⟩
    | some stop =>
        have hNone := hEvicts.dropped c hC (by rw [hStop]; rfl) hFlag
        rw [hTensor] at hNone
        exact hEarlier c hC hTensor hNone
  case dropped =>
    intro c hC hStop hFlag
    rw [hUnread]
    rw [hHistory, List.mem_append, List.mem_singleton] at hC
    rcases hC with hOld | rfl
    · exact hEvicts.dropped c hOld hStop hFlag
    · rw [hPlaces.opened] at hStop
      cases hStop
  case unspilled =>
    intro c hC hNone
    rw [hUnread] at hNone
    rw [hHistory]
    rw [hHistory, List.mem_append, List.mem_singleton] at hC
    rcases hC with hOld | rfl
    · rcases hEvicts.unspilled c hOld hNone with ⟨d, hD, hRest⟩
      exact ⟨d, List.mem_append_left _ hD, hRest⟩
    · exact ⟨c, List.mem_append_right _ (List.mem_singleton.mpr rfl), rfl,
        hPlaces.unspilled⟩

/- What an operation reads is on the chip until it commits. -/
theorem CanCommit.unread_or
    {u : TensorId}
    (hCommit : v.CanCommit i op bs)
    (hQueued : v.Queued program)
    (hUnread : (v.committed i op bs).Unread u) :
    v.Unread u ∨ v.OnChip u := by
  by_cases hReads : u ∈ op.reads
  · exact .inr (hCommit.reads u hReads)
  · exact .inl
      (hQueued.unread_of_committed hCommit.pending hReads hUnread)

/- Every step evicts what is read, and drops what is not. -/
theorem Evicts.step
    (hLegal : v.Legal program)
    (hAccounted : v.Accounted program)
    (hEvicts : v.Evicts)
    (hStep : v.Step v') :
    v'.Evicts := by
  cases hStep with
  | leave hLeaves =>
      cases hLeaves with
      | copied _ _ _ _ _ hRead =>
          exact hEvicts.close rfl rfl (by simpa using hRead)
      | stored _ _ _ _ _ _ hRead =>
          exact hEvicts.close rfl rfl (by simpa using hRead)
  | reload hPlaces _ _ _ _ hRead =>
      exact hEvicts.place hPlaces rfl rfl (fun _ _ _ => hRead)
  | @commit i op bs hCommit =>
      -- The binding is placed first, since the operation may read
      -- and write while it is still pending.
      have hPlaced :
          Evicts { v with history := v.history ++ bs } := by
        rcases places_cases hCommit.writes with
          ⟨-, rfl⟩ | ⟨t, b, hT, rfl, hPlaces⟩
        · exact hEvicts.retire (List.append_nil _) (fun _ hP => hP)
            (fun _ hNone => .inl hNone)
        · refine hEvicts.place hPlaces rfl rfl ?_
          intro c hC hTensor
          have hWritten : t ∈ written v.done := by
            rw [← hAccounted.bound, ← hTensor]
            exact List.mem_map_of_mem hC
          exact absurd hT
            (hAccounted.defined t hWritten (i, op) hCommit.pending)
      refine hPlaced.retire rfl (fun _ hP => List.mem_of_mem_eraseP hP) ?_
      intro u hNone
      rcases hCommit.unread_or hLegal.toQueued hNone with hOld | hOn
      · exact .inl hOld
      · exact .inr (onChip_append rfl hOn)
  | drop _ hUnread =>
      exact hEvicts.close rfl rfl (by simpa using hUnread)

theorem evicts_start
    (bench : Workbench)
    (program : List Operation) :
    (start bench program).Evicts := by
  constructor
  case kept => exact fun b hB => nomatch hB.1
  all_goals simp [start]

/-
  An evicted binding was followed by others, so one of each
  tensor is last.
-/
theorem Evicts.exists_last
    (hEvicts : v.Evicts)
    (hPending : v.pending = [])
    (hMem : t ∈ v.history.map (·.tensor)) :
    ∃ before last,
      v.history.filter (fun b => b.tensor = t) = before ++ [last] ∧
      last.spilled = false ∧ ∀ b ∈ before, b.spilled = true := by
  rcases List.mem_map.mp hMem with ⟨b, hB, hTensor⟩
  have hUnread : v.Unread b.tensor := by
    intro p hP
    rw [hPending] at hP
    cases hP
  rcases hEvicts.unspilled b hB hUnread with ⟨c, hC, hSame, hFlag⟩
  have hFilter : c ∈ v.history.filter (fun b => b.tensor = t) :=
    List.mem_filter.mpr ⟨hC, decide_eq_true (hSame.trans hTensor)⟩
  rcases List.append_of_mem hFilter with ⟨before, after, hSplit⟩
  have hOrder :
      (v.history.filter (fun b => b.tensor = t)).Pairwise
        (fun b _ => b.spilled = true) := by
    rw [List.pairwise_filter]
    refine hEvicts.replaced.imp ?_
    intro b d hBefore hB hD
    exact hBefore ((of_decide_eq_true hB).trans (of_decide_eq_true hD).symm)
  rw [hSplit, List.pairwise_append] at hOrder
  -- Nothing follows a binding that was dropped.
  have hLast : after = [] := by
    cases after with
    | nil => rfl
    | cons d after =>
        have hLater := (List.pairwise_cons.mp hOrder.2.1).1 d
          List.mem_cons_self
        cases hFlag.symm.trans hLater
  subst hLast
  exact ⟨before, c, hSplit, hFlag,
    fun b hB => hOrder.2.2 b hB c List.mem_cons_self⟩

------------------------------------------------------------
-- Copies
------------------------------------------------------------

/- A tensor has a copy in DRAM. -/
def Copied
    (v : View)
    (t : TensorId) : Prop :=
  ∃ tensor, v.tensors.get? t = some tensor ∧ tensor.dramCopy.isSome

/-
  A tensor was stored at a position: it has no home, its first
  binding was evicted there, and it was brought back later only.
-/
structure StoredAt
    (v : View)
    (p : Nat)
    (t : TensorId) : Prop where
  slot :
    ∃ tensor, v.tensors.Holds t .scratchpad tensor ∧
      tensor.home = none ∧ tensor.spilled.isSome
  first :
    ∃ b, v.history.find? (fun b => b.tensor = t) = some b ∧
      b.spilled = true ∧ b.releasedAt = some p
  earlier : ∀ q : Nat, v.done[q]? = some (.reload t) → p < q

/-
  What was evicted or brought back has a copy in DRAM, and what
  was stored had none before.
-/
structure Stashes (v : View) : Prop where
  evicted : ∀ b ∈ v.history, b.spilled = true → v.Copied b.tensor
  reloaded : ∀ t, .reload t ∈ v.done → v.Copied t
  stored :
    ∀ (p : Nat) (t : TensorId), v.done[p]? = some (.spill t) →
      v.StoredAt p t

theorem Copied.extend
    (hCopied : v.Copied t)
    (hTensors : v.tensors.Extends v'.tensors) :
    v'.Copied t := by
  rcases hCopied with ⟨tensor, hEntry, hCopy⟩
  rcases hTensors t tensor hEntry with ⟨grown, hGrown, hGrows⟩
  exact ⟨grown, hGrown, hGrows.isSome_dramCopy hCopy⟩

/- The first binding of a tensor stays the first when one ends. -/
theorem find?_close
    (history : List Binding)
    (t u : TensorId)
    (time : Nat)
    (spilled : Bool) :
    (Systolic.close history t time spilled).find? (fun b => b.tensor = u) =
      (history.find? (fun b => b.tensor = u)).map (fun b =>
        if b.tensor = t ∧ b.releasedAt = none then
          { b with releasedAt := some time, spilled }
        else b) := by
  rw [Systolic.close, List.find?_map]
  congr 2
  funext b
  simp only [Function.comp_apply]
  split <;> rfl

theorem StoredAt.mono
    {p : Nat}
    (hStored : v.StoredAt p t)
    (hTensors : v.tensors.Extends v'.tensors)
    (hFirst :
      ∀ b, v.history.find? (fun b => b.tensor = t) = some b →
        b.releasedAt.isSome →
          v'.history.find? (fun b => b.tensor = t) = some b)
    (hDone :
      ∀ q : Nat, v'.done[q]? = some (.reload t) →
        v.done[q]? = some (.reload t) ∨ p < q) :
    v'.StoredAt p t := by
  constructor
  case slot =>
    rcases hStored.slot with ⟨tensor, hHolds, hHome, hSpilled⟩
    rcases hHolds.extend hTensors with ⟨grown, hGrown, hGrows⟩
    rcases Option.isSome_iff_exists.mp hSpilled with ⟨l, hL⟩
    refine ⟨grown, hGrown, hGrows.home_eq.trans hHome, ?_⟩
    rw [hGrows.spilled l hL]
    rfl
  case first =>
    rcases hStored.first with ⟨b, hFind, hFlag, hStop⟩
    exact ⟨b, hFirst b hFind (by rw [hStop]; rfl), hFlag, hStop⟩
  case earlier =>
    intro q hQ
    rcases hDone q hQ with hOld | hLater
    · exact hStored.earlier q hOld
    · exact hLater

/- A binding ends. What is evicted has a copy, which may be new. -/
theorem Stashes.close
    (hStashes : v.Stashes)
    (hHistory : v'.history = Systolic.close v.history t time spilled)
    (hTensors : v.tensors.Extends v'.tensors)
    (hCopied : spilled = true → v'.Copied t)
    (hDone :
      v'.done = v.done ∨
        (v'.done = v.done ++ [.spill t] ∧ v'.StoredAt v.position t)) :
    v'.Stashes := by
  have hReload :
      ∀ (q : Nat) (u : TensorId), v'.done[q]? = some (.reload u) →
        v.done[q]? = some (.reload u) := by
    intro q u hQ
    rcases hDone with hDone | ⟨hDone, -⟩
    · rwa [hDone] at hQ
    · rw [hDone] at hQ
      rcases getElem?_push_cases hQ with ⟨-, hOld⟩ | ⟨-, hNew⟩
      · exact hOld
      · cases hNew
  constructor
  case evicted =>
    intro b hB hFlag
    rw [hHistory, mem_close] at hB
    rcases hB with ⟨hOld, -⟩ | ⟨c, -, hTensor, -, rfl⟩
    · exact (hStashes.evicted b hOld hFlag).extend hTensors
    · change v'.Copied c.tensor
      rw [hTensor]
      exact hCopied hFlag
  case reloaded =>
    intro u hU
    rcases List.mem_iff_getElem?.mp hU with ⟨q, hQ⟩
    exact (hStashes.reloaded u
      (List.mem_of_getElem? (hReload q u hQ))).extend hTensors
  case stored =>
    intro p u hP
    have hKept : v.done[p]? = some (.spill u) → v'.StoredAt p u := by
      intro hOld
      refine (hStashes.stored p u hOld).mono hTensors ?_
        (fun q hQ => .inl (hReload q u hQ))
      intro b hFind hStop
      rw [hHistory, find?_close, hFind, Option.map_some, if_neg]
      intro hBoth
      rw [hBoth.2] at hStop
      cases hStop
    rcases hDone with hDone | ⟨hDone, hNew⟩
    · rw [hDone] at hP
      exact hKept hP
    · rw [hDone] at hP
      rcases getElem?_push_cases hP with ⟨-, hOld⟩ | ⟨rfl, hLast⟩
      · exact hKept hOld
      · cases hLast
        exact hNew

/- An operation commits that is no spill, with new bindings. -/
theorem Stashes.enter
    (hStashes : v.Stashes)
    (hHistory : v'.history = v.history ++ bs)
    (hTensors : v'.tensors = v.tensors)
    (hDone : v'.done = v.done ++ [op])
    (hOpen : ∀ b ∈ bs, b.spilled = false)
    (hOp :
      op.isMove = false ∨ ∃ t, op = .reload t ∧ v.Copied t) :
    v'.Stashes := by
  have hSame : v.tensors.Extends v'.tensors := by
    rw [hTensors]
    exact .refl _
  constructor
  case evicted =>
    intro b hB hFlag
    rw [hHistory, List.mem_append] at hB
    rcases hB with hOld | hNew
    · exact (hStashes.evicted b hOld hFlag).extend hSame
    · cases (hOpen b hNew).symm.trans hFlag
  case reloaded =>
    intro u hU
    rw [hDone, List.mem_append, List.mem_singleton] at hU
    rcases hU with hOld | rfl
    · exact (hStashes.reloaded u hOld).extend hSame
    · rcases hOp with hPlain | ⟨t, hT, hCopied⟩
      · cases hPlain
      · cases hT
        exact hCopied.extend hSame
  case stored =>
    intro p u hP
    rw [hDone] at hP
    rcases getElem?_push_cases hP with ⟨hBefore, hOld⟩ | ⟨-, rfl⟩
    · refine (hStashes.stored p u hOld).mono hSame ?_ ?_
      · intro b hFind _
        rw [hHistory, List.find?_append, hFind, Option.some_or]
      · intro q hQ
        rw [hDone] at hQ
        rcases getElem?_push_cases hQ with ⟨-, hOldQ⟩ | ⟨rfl, -⟩
        · exact .inl hOldQ
        · exact .inr hBefore
    · rcases hOp with hPlain | ⟨t, hT, -⟩
      · cases hPlain
      · cases hT

/- A tensor without a copy is stored as its first binding ends. -/
theorem Leaves.storedAt
    (hSettled : v.Settled)
    (hEvicts : v.Evicts)
    (hStashes : v.Stashes)
    (hLeaves : v.Leaves t v')
    (hDone : v'.done = v.done ++ [.spill t]) :
    v'.StoredAt v.position t := by
  cases hLeaves with
  | copied => simp at hDone
  | @stored b tensor hPresent hTensor hKind hEntry hCopy _ hRead =>
      have hNew : ¬ v.Copied t := by
        rintro ⟨other, hOther, hSome⟩
        cases hEntry.symm.trans hOther
        rw [hCopy] at hSome
        cases hSome
      constructor
      case slot =>
        rcases hSettled.suits b hPresent with ⟨other, hOther, hSame, -⟩
        rw [hTensor] at hOther
        cases hEntry.symm.trans hOther
        refine ⟨tensor.setSlot .spilled
          (some { bank := .dram0, address := v.dram.used .dram0 }),
          ⟨?_, hSame.symm.trans hKind⟩,
          (Option.or_eq_none_iff.mp hCopy).2, rfl⟩
        simp only [TensorTable.get?_modify, if_true, hEntry,
          Option.map_some]
      case first =>
        have hFind :
            (v.history.find? (fun b => b.tensor = t)).isSome := by
          rw [List.find?_isSome]
          exact ⟨b, hPresent.1, decide_eq_true hTensor⟩
        rcases Option.isSome_iff_exists.mp hFind with ⟨c, hC⟩
        have hMem := List.mem_of_find?_eq_some hC
        have hSame : c.tensor = t := by
          simpa using List.find?_some hC
        -- Were it closed, it was evicted before or nothing reads it.
        have hOpen : c.releasedAt = none := by
          by_contra hClosed
          have hStop := Option.ne_none_iff_isSome.mp hClosed
          cases hFlag : c.spilled with
          | true => exact hNew (hSame ▸ hStashes.evicted c hMem hFlag)
          | false =>
              exact hRead (hSame ▸ hEvicts.dropped c hMem hStop hFlag)
        refine ⟨{ c with releasedAt := some v.position, spilled := true },
          ?_, rfl, rfl⟩
        rw [find?_close, hC, Option.map_some, if_pos ⟨hSame, hOpen⟩]
      case earlier =>
        intro q hQ
        rcases getElem?_push_cases hQ with ⟨-, hOld⟩ | ⟨-, hLast⟩
        · exact absurd
            (hStashes.reloaded t (List.mem_of_getElem? hOld)) hNew
        · cases hLast

/- Every step keeps the copies in order. -/
theorem Stashes.step
    (hPlain : ∀ op ∈ program, op.isMove = false)
    (hLegal : v.Legal program)
    (hEvicts : v.Evicts)
    (hStashes : v.Stashes)
    (hStep : v.Step v') :
    v'.Stashes := by
  cases hStep with
  | @leave t _ hLeaves =>
      have hDeparts := hLeaves.departs hLegal.toSettled
      refine hStashes.close hDeparts.history hDeparts.tensors ?_ ?_
      · intro _
        rcases hDeparts.copy with ⟨tensor, hHolds, hCopy⟩
        exact ⟨tensor, hHolds.1, hCopy⟩
      · have hStored := hLeaves.storedAt hLegal.toSettled hEvicts hStashes
        cases hLeaves with
        | copied => exact .inl rfl
        | stored => exact .inr ⟨rfl, hStored rfl⟩
  | reload hPlaces _ hEntry hCopy _ _ =>
      refine hStashes.enter rfl rfl rfl ?_ (.inr ⟨_, rfl, _, hEntry, hCopy⟩)
      exact List.forall_mem_singleton.mpr hPlaces.unspilled
  | @commit i op bs hCommit =>
      have hOp := List.mem_of_getElem? (hLegal.listed i op hCommit.pending)
      refine hStashes.enter rfl rfl rfl ?_ (.inl (hPlain op hOp))
      rcases places_cases hCommit.writes with
        ⟨-, rfl⟩ | ⟨t, b, -, rfl, hPlaces⟩
      · exact List.forall_mem_nil _
      · exact List.forall_mem_singleton.mpr hPlaces.unspilled
  | drop =>
      exact hStashes.close rfl (.refl _) (fun hFlag => nomatch hFlag)
        (.inl rfl)

theorem stashes_start
    (bench : Workbench)
    (program : List Operation) :
    (start bench program).Stashes := by
  constructor <;> simp [start]

end View

------------------------------------------------------------
-- Schedules
------------------------------------------------------------

/-
  What the history of a tensor and the operations of a schedule
  have to do with each other. It has one binding more than it is
  brought back, and all but the last end by an eviction. It is
  stored at most once, if it is a tensor of the scratchpad without
  a home, as its first binding is evicted and before it is brought
  back.
-/
structure Memory.Balances
    (m : Memory)
    (table : TensorTable)
    (ops : List Operation)
    (t : TensorId) : Prop where
  bindings :
    (m.history.filter (fun b => b.tensor = t)).length =
      ops.count (.reload t) + 1
  evicted :
    ∃ before last,
      m.history.filter (fun b => b.tensor = t) = before ++ [last] ∧
      before.length = ops.count (.reload t) ∧
      last.spilled = false ∧ ∀ b ∈ before, b.spilled = true
  once : ops.count (.spill t) ≤ 1
  stored :
    ∀ p : Nat, ops[p]? = some (.spill t) →
      (∃ tensor, table.Holds t .scratchpad tensor ∧
        tensor.home = none) ∧
      (∃ b, m.history.find? (fun b => b.tensor = t) = some b ∧
        b.spilled = true ∧ b.releasedAt = some p) ∧
      ∀ q : Nat, ops[q]? = some (.reload t) → p < q

namespace View

variable {program : List Operation} {v : View} {t : TensorId}

/- In the end, what is written again is what was brought back. -/
theorem Accounted.written_done
    (hAccounted : v.Accounted program)
    (hPending : v.pending = []) :
    (written v.done).Perm (written program ++ reloaded v.done) := by
  have hShared := hAccounted.shared
  rw [hPending, List.map_nil, List.append_nil] at hShared
  exact (written_perm v.done).trans
    ((hShared.filterMap Operation.writes).append_right _)

/- In the end, each tensor has one binding that was not evicted. -/
theorem Evicts.perm_unspilled
    (hSingle : SingleAssignment program)
    (hAccounted : v.Accounted program)
    (hEvicts : v.Evicts)
    (hPending : v.pending = []) :
    ((v.history.filter (fun b => !b.spilled)).map (·.tensor)).Perm
      (written program) := by
  rw [List.perm_ext_iff_of_nodup ?_ hSingle.nodup_written]
  · intro t
    constructor
    · intro hMem
      apply hAccounted.known
      rw [← hAccounted.bound]
      exact (List.filter_sublist.map _).subset hMem
    · intro hMem
      have hBound : t ∈ v.history.map (·.tensor) := by
        rw [hAccounted.bound,
          (hAccounted.written_done hPending).mem_iff]
        exact List.mem_append_left _ hMem
      rcases hEvicts.exists_last hPending hBound with
        ⟨before, last, hSplit, hFlag, -⟩
      have hLast : last ∈ v.history.filter (fun b => b.tensor = t) := by
        rw [hSplit]
        exact List.mem_append_right _ List.mem_cons_self
      rcases List.mem_filter.mp hLast with ⟨hIn, hTensor⟩
      refine List.mem_map.mpr
        ⟨last, List.mem_filter.mpr ⟨hIn, ?_⟩, of_decide_eq_true hTensor⟩
      rw [hFlag]
      rfl
  · unfold List.Nodup
    rw [List.pairwise_map, List.pairwise_filter]
    refine hEvicts.replaced.imp ?_
    intro b c hBefore hB _ hTensor
    rw [hBefore hTensor] at hB
    cases hB

/- As many bindings end by an eviction as tensors are brought back. -/
theorem Evicts.countP_spilled
    (hSingle : SingleAssignment program)
    (hAccounted : v.Accounted program)
    (hEvicts : v.Evicts)
    (hPending : v.pending = []) :
    v.history.countP (·.spilled) = (reloaded v.done).length := by
  have hAll := (hAccounted.written_done hPending).length_eq
  have hKept :=
    (hEvicts.perm_unspilled hSingle hAccounted hPending).length_eq
  have hSplit :=
    List.length_eq_countP_add_countP (·.spilled) (l := v.history)
  have hBound := congrArg List.length hAccounted.bound
  have hRest :
      v.history.countP (fun b => decide ¬ b.spilled = true) =
        (v.history.filter (fun b => !b.spilled)).length := by
    rw [List.countP_eq_length_filter]
    simp
  rw [List.length_append] at hAll
  rw [List.length_map] at hKept hBound
  omega

end View

/- The balance of each tensor that a program without moves writes. -/
theorem Workbench.Schedules.balances
    {n : Nat}
    {task : Task}
    {bench : Workbench}
    {run : Run}
    {t : TensorId}
    (hSchedules : bench.Schedules task run)
    (hForm : WellFormed n bench.tensors task.program)
    (hAccounted : run.view.Accounted task.program)
    (hEvicts : run.view.Evicts)
    (hStashes : run.view.Stashes)
    (hWritten : t ∈ written task.program) :
    run.bench.memory.Balances bench.tensors run.view.done t := by
  have hPending := hSchedules.pending
  have hCount : (written run.view.done).count t =
      run.view.done.count (.reload t) + 1 := by
    rw [(hAccounted.written_done hPending).count_eq, List.count_append,
      List.count_eq_one_of_mem hSchedules.single.nodup_written hWritten,
      count_reloaded, Nat.add_comm]
  have hLength :
      (run.view.history.filter (fun b => b.tensor = t)).length =
        run.view.done.count (.reload t) + 1 := by
    rw [← hCount, ← hAccounted.bound, List.count, List.countP_map,
      List.countP_eq_length_filter]
    congr 2
  have hBound : t ∈ run.view.history.map (·.tensor) := by
    rw [hAccounted.bound, ← List.count_pos_iff, hCount]
    exact Nat.succ_pos _
  constructor
  case bindings => exact hLength
  case evicted =>
    rcases hEvicts.exists_last hPending hBound with
      ⟨before, last, hSplit, hFlag, hBefore⟩
    refine ⟨before, last, hSplit, ?_, hFlag, hBefore⟩
    rw [hSplit, List.length_append, List.length_singleton] at hLength
    omega
  case once =>
    by_cases hMem : .spill t ∈ run.view.done
    · refine Nat.le_of_eq (count_eq_one_of_place hMem ?_)
      intro p q hP hQ
      rcases (hStashes.stored p t hP).first with ⟨b, hFind, -, hStop⟩
      rcases (hStashes.stored q t hQ).first with ⟨c, hFind', -, hStop'⟩
      cases hFind.symm.trans hFind'
      exact Option.some.inj (hStop.symm.trans hStop')
    · rw [List.count_eq_zero.mpr hMem]
      exact Nat.zero_le _
  case stored =>
    intro p hP
    have hStored := hStashes.stored p t hP
    refine ⟨?_, hStored.first, hStored.earlier⟩
    -- The table has grown since, but homes and memories stay.
    rcases List.mem_filterMap.mp hWritten with ⟨op, hOp, hWrites⟩
    rcases (hForm.typed hOp).get?_mentions t
        (Operation.mem_mentions_of_writes hWrites) with ⟨tensor, hEntry⟩
    rcases hSchedules.steps_view.extends hSchedules.single
        (View.legal_start hSchedules.single bench) t tensor hEntry with
      ⟨grown, hGrown, hGrows⟩
    rcases hStored.slot with ⟨other, hHolds, hHome, -⟩
    cases hHolds.1.symm.trans hGrown
    exact ⟨tensor, ⟨hEntry, hGrows.kind_eq.symm.trans hHolds.2⟩,
      hGrows.home_eq.symm.trans hHome⟩

/- A lowered program is well formed, and its memories are empty. -/
theorem lowerNetwork_eq_ok
    {ν : Type}
    [DecidableEq ν]
    {net : Network ν}
    {outputs : List String}
    {m : Machine}
    {program : List Operation}
    {start bench : Workbench}
    (hStart : Workbench.ofMachine m = .ok start)
    (hLower : lowerNetwork net outputs start = .ok (program, bench)) :
    WellFormed m.arraySize bench.tensors program ∧
      bench.memory = .empty m.localDepth m.accumulatorDepth := by
  rcases Workbench.ofMachine_ok hStart with ⟨hSize, layout, -, rfl⟩
  unfold lowerNetwork at hLower
  split at hLower
  case h_1 => cases hLower
  case h_2 nodes hOrder =>
    rcases lowered_of_lowerNodes hSize hLower with
      ⟨roots, s, ⟨-, hAll, hSound, -⟩, rfl, rfl⟩
    have hSame := hAll.untouched
    have hForm := hSound.program
    rw [hSame.machine_eq] at hForm
    exact ⟨hForm, hSame.memory_eq⟩

/-
  The schedule of a lowered program balances the bindings and the
  moves of every tensor that the program writes, and the memories
  count as many evictions as tensors are brought back.
-/
theorem Workbench.schedule_balances
    {ν : Type}
    [DecidableEq ν]
    {net : Network ν}
    {outputs : List String}
    {m : Machine}
    {lookahead : Nat}
    {program : List Operation}
    {start bench bench' : Workbench}
    {s : Schedule}
    (hStart : ofMachine m = .ok start)
    (hLower : lowerNetwork net outputs start = .ok (program, bench))
    (hSchedule : schedule program lookahead bench = .ok s bench') :
    (∀ t ∈ written program,
      bench'.memory.Balances bench.tensors
        (s.ops.map (·.operation)) t) ∧
    bench'.memory.stats.spills = s.reloads := by
  rcases lowerNetwork_eq_ok hStart hLower with ⟨hForm, hEmpty⟩
  rcases schedules_of_ok hEmpty hSchedule with
    ⟨run, hSchedules, rfl, rfl⟩
  have hPlain : ∀ op ∈ program, op.isMove = false :=
    fun op hMem => (hForm.typed hMem).isMove_eq_false
  have hInvariant :
      run.view.Accounted program ∧ run.view.Evicts ∧ run.view.Stashes := by
    refine hSchedules.invariant
      (P := fun j => j.view.Accounted program ∧ j.view.Evicts ∧
        j.view.Stashes) ?_ ?_
    · exact ⟨View.accounted_start bench program,
        View.evicts_start bench program, View.stashes_start bench program⟩
    · rintro j j' hLegal ⟨hAccounted, hEvicts, hStashes⟩ hStep
      have hView := hStep.view
      exact ⟨hAccounted.step hSchedules.single hPlain hLegal hView,
        hEvicts.step hLegal hAccounted hView,
        hStashes.step hPlain hLegal hEvicts hView⟩
  rcases hInvariant with ⟨hAccounted, hEvicts, hStashes⟩
  have hDone : run.schedule.ops.map (·.operation) = run.view.done := by
    simp [Run.schedule, Run.view]
  constructor
  · intro t hWritten
    rw [hDone]
    exact hSchedules.balances hForm hAccounted hEvicts hStashes hWritten
  · have hSpills := hEvicts.countP_spilled hSchedules.single hAccounted
      hSchedules.pending
    have hReloads : run.schedule.reloads = (reloaded run.view.done).length := by
      rw [← hDone, reloaded, List.length_filterMap_eq_countP,
        List.countP_map]
      unfold Schedule.reloads
      apply List.countP_congr
      intro c _
      simp only [Function.comp_apply]
      cases c.operation <;> simp [Operation.reloads]
    rw [hSchedules.sound.memory.tallied, hReloads]
    exact hSpills

/-
  With one vector in each memory, both rectified inputs are stored
  once and brought back once.
-/
theorem Workbench.schedule_balances_rectifiedSum :
    ∃ x : Scheduled,
      x.schedule.spills = 2 ∧ x.schedule.reloads = 2 ∧
      x.after.memory.stats.spills = 2 ∧
      ∀ t ∈ written x.program,
        x.after.memory.Balances x.before.tensors
          (x.schedule.ops.map (·.operation)) t := by
  have hFacts :
      (scheduleNetwork? rectifiedSum ["sum"] oneVector 8).map
        (fun x => (x.schedule.spills, x.schedule.reloads)) =
      some (2, 2) := by
    decide +kernel
  rcases Option.map_eq_some_iff.mp hFacts with ⟨x, hScheduled, hSeen⟩
  rcases Prod.mk.inj hSeen with ⟨hSpills, hReloads⟩
  rcases scheduleNetwork?_eq_some hScheduled with
    ⟨⟨start, hStart, hLower⟩, hSchedule⟩
  rcases schedule_balances hStart hLower hSchedule with
    ⟨hBalances, hTotal⟩
  exact ⟨x, hSpills, hReloads, hTotal.trans hReloads, hBalances⟩

end Systolic
