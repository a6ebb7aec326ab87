import Systolic.Proofs.Effect.Ensures
import Systolic.Schedule.Commit

/-
  This file counts the tensors that are placed on the chip and
  those that leave it for want of room. All steps of a scheduler
  but requests for room place nothing, and only evictions let
  tensors leave. Steps that fail are counted as well: they may
  end before all of their evictions are done.

  Key definitions include:
    * `Memory.turnover`
    * `Sheds`

  Key theorems include:
    * `Sheds.bind`
    * `Sheds.forM`
    * `Commit.sheds_finish`
    * `Commit.sheds_evictions`
-/

namespace Systolic

------------------------------------------------------------
-- Counted Steps
------------------------------------------------------------

/- How many tensors were placed, and how many left for want of room. -/
def Memory.turnover (m : Memory) : Nat × Nat :=
  (m.stats.allocations, m.stats.spills)

def Run.turnover (run : Run) : Nat × Nat :=
  run.bench.memory.turnover

/- Nothing was placed, and no more than `n` tensors have left. -/
structure ShedsUpTo
    (n : Nat)
    (before after : Nat × Nat) : Prop where
  placed : after.1 = before.1
  least : before.2 ≤ after.2
  most : after.2 ≤ before.2 + n

/-
  A step places nothing and lets `n` tensors leave. It may stop
  before all of them have left if it fails.
-/
def Sheds
    {ε σ α : Type}
    (turnover : σ → Nat × Nat)
    (n : Nat)
    (action : EStateM ε σ α) : Prop :=
  ∀ s,
    match action s with
    | .ok _ s' => turnover s' = ((turnover s).1, (turnover s).2 + n)
    | .error _ s' => ShedsUpTo n (turnover s) (turnover s')

section Steps

variable {ε σ α β : Type} {turnover : σ → Nat × Nat} {n k : Nat}

theorem ShedsUpTo.none (before : Nat × Nat) : ShedsUpTo n before before :=
  ⟨rfl, Nat.le_refl _, Nat.le_add_right _ _⟩

theorem sheds_pure
    (a : α) :
    Sheds turnover 0 (pure a : EStateM ε σ α) :=
  fun _ => rfl

theorem sheds_throw
    (e : ε) :
    Sheds turnover n (throw e : EStateM ε σ α) :=
  fun _ => .none _

theorem sheds_get : Sheds turnover 0 (get : EStateM ε σ σ) :=
  fun _ => rfl

theorem sheds_modify
    {change : σ → σ}
    (hSame : ∀ s, turnover (change s) = turnover s) :
    Sheds turnover 0 (modify change : EStateM ε σ PUnit) :=
  hSame

theorem Sheds.bind
    {action : EStateM ε σ α}
    {next : α → EStateM ε σ β}
    (hFirst : Sheds turnover n action)
    (hThen : ∀ a, Sheds turnover k (next a)) :
    Sheds turnover (n + k) (action >>= next) := by
  intro s
  have hOne := hFirst s
  cases hRun : action s with
  | error e s₁ =>
      rw [hRun] at hOne
      rw [bind_of_error hRun]
      rcases hOne with ⟨hPlaced, hLeast, hMost⟩
      exact ⟨hPlaced, hLeast, by omega⟩
  | ok a s₁ =>
      rw [hRun] at hOne
      rw [bind_of_ok hRun]
      have hTwo := hThen a s₁
      rw [hOne] at hTwo
      cases hNext : next a s₁ with
      | ok b s₂ =>
          rw [hNext] at hTwo
          exact hTwo.trans (by rw [Nat.add_assoc])
      | error e s₂ =>
          rw [hNext] at hTwo
          rcases hTwo with ⟨hPlaced, hLeast, hMost⟩
          exact ⟨hPlaced, by omega, by omega⟩

theorem Sheds.forM
    {f : α → EStateM ε σ PUnit}
    (hEach : ∀ a, Sheds turnover n (f a))
    (l : List α) :
    Sheds turnover (l.length * n) (l.forM f) := by
  induction l with
  | nil =>
      rw [List.length_nil, Nat.zero_mul]
      exact sheds_pure _
  | cons a l ih =>
      rw [List.length_cons, Nat.succ_mul, Nat.add_comm]
      exact (hEach a).bind (fun _ => ih)

/- A step that lets nothing leave can be repeated. -/
theorem Sheds.forM_none
    {f : α → EStateM ε σ PUnit}
    (hEach : ∀ a, Sheds turnover 0 (f a))
    (l : List α) :
    Sheds turnover 0 (l.forM f) :=
  Sheds.forM hEach l

end Steps

------------------------------------------------------------
-- Memories
------------------------------------------------------------

namespace Memory

theorem turnover_setFreeList
    (m : Memory)
    (kind : MemoryKind)
    (l : FreeList) :
    (m.setFreeList kind l).turnover = m.turnover := by
  cases kind <;> rfl

variable (t : TensorId)

theorem sheds_pin : Sheds turnover 0 (pin t) := by
  intro m
  by_cases hResident : m.IsResident t
  · rw [pin, if_pos hResident]
    rfl
  · rw [pin, if_neg hResident]
    exact .none _

theorem sheds_unpin : Sheds turnover 0 (unpin t) := by
  intro m
  by_cases hPinned : (m.resident? t).any (fun r => 0 < r.pins) = true
  · rw [unpin, if_pos hPinned]
    rfl
  · rw [unpin, if_neg hPinned]
    exact .none _

theorem sheds_release
    (spilled : Bool) :
    Sheds turnover 0 (release t spilled) := by
  intro m
  unfold release
  cases m.resident? t with
  | none => exact .none _
  | some r =>
      dsimp only
      by_cases hPinned : r.pins ≠ 0
      · rw [if_pos hPinned]
        exact .none _
      · rw [if_neg hPinned]
        split
        case h_1 a m' hRun =>
          split at hRun
          case h_1 => cases hRun
          case h_2 =>
            cases hRun
            exact turnover_setFreeList _ _ _
        case h_2 e m' hRun =>
          split at hRun
          case h_1 =>
            cases hRun
            exact .none _
          case h_2 => cases hRun

theorem sheds_spill : Sheds turnover 1 (spill t) := by
  intro m
  have hRelease := sheds_release t true m
  unfold spill
  by_cases hKind :
      (m.binding? t).any (fun b => b.kind = .accumulator) = true
  · rw [if_pos hKind]
    exact .none _
  · rw [if_neg hKind]
    cases hRun : release t true m with
    | error e m' =>
        rw [hRun] at hRelease
        rcases hRelease with ⟨hPlaced, hLeast, hMost⟩
        exact ⟨hPlaced, hLeast, by omega⟩
    | ok b m' =>
        rw [hRun] at hRelease
        rcases Prod.mk.inj hRelease with ⟨hPlaced, hSpills⟩
        exact Prod.ext hPlaced (congrArg (· + 1) hSpills)

/- A request for room is counted if it has a place. -/
theorem turnover_allocate
    (m : Memory)
    (name : String)
    (layout : VectorLayout)
    (kind : MemoryKind) :
    match allocate t name layout kind m with
    | .ok (.placed _) m' => m'.turnover = (m.turnover.1 + 1, m.turnover.2)
    | .ok (.spill _ _) m' => m'.turnover = m.turnover
    | .error _ m' => m'.turnover = m.turnover := by
  unfold allocate
  dsimp only
  by_cases hResident : m.IsResident t
  · rw [if_pos hResident]
    rfl
  by_cases hSize : layout.depth = 0 ∨ m.capacity kind < layout.depth
  · rw [if_neg hResident, if_pos hSize]
  rw [if_neg hResident, if_neg hSize]
  cases (m.freeList kind).bestFit layout.depth layout.alignment with
  | none => cases m.victims? kind layout.depth layout.alignment <;> rfl
  | some address =>
      simp only [place]
      cases (m.freeList kind).reserve?
          { start := address, length := layout.depth } with
      | none => rfl
      | some l => cases kind <;> rfl

end Memory

------------------------------------------------------------
-- Steps of a Scheduler
------------------------------------------------------------

namespace Commit

variable {α : Type} {n : Nat}

theorem sheds_onMemory
    {action : Memory.Action α}
    (hAction : Sheds Memory.turnover n action) :
    Sheds Run.turnover n (onMemory action) := by
  intro run
  have hMemory := hAction run.bench.memory
  unfold onMemory
  cases hRun : action run.bench.memory with
  | ok a m =>
      rw [hRun] at hMemory
      exact hMemory
  | error e m =>
      rw [hRun] at hMemory
      exact hMemory

theorem sheds_ofExcept
    (result : Except CompileError α) :
    Sheds Run.turnover 0 (ofExcept result) := by
  cases result with
  | ok a => exact sheds_pure a
  | error e => exact sheds_throw e

theorem sheds_ask
    (question : Run → Except CompileError α) :
    Sheds Run.turnover 0 (ask question) :=
  sheds_get.bind (fun _ => sheds_ofExcept _)

theorem sheds_modifyMemory
    {change : Memory → Memory}
    (hSame : ∀ m, (change m).turnover = m.turnover) :
    Sheds Run.turnover 0 (modifyMemory change) :=
  sheds_modify (fun run => hSame run.bench.memory)

theorem sheds_setClock : Sheds Run.turnover 0 setClock :=
  sheds_get.bind (fun _ => sheds_modifyMemory (fun _ => rfl))

theorem sheds_pins
    (pins : List TensorId) :
    Sheds Run.turnover 0
      (pins.forM (fun t => onMemory (Memory.pin t))) :=
  Sheds.forM_none (fun t => sheds_onMemory (Memory.sheds_pin t)) pins

theorem sheds_emit
    (op : Operation)
    (origin : Option Nat)
    (anchor : Nat) :
    Sheds Run.turnover 0 (emit op origin anchor) := by
  have hCheck : Sheds Run.turnover 0 (checkConflict anchor op) := by
    refine sheds_get.bind (k := 0) (fun run => ?_)
    split
    case h_1 => exact sheds_pure _
    case h_2 =>
      split
      case h_1 => exact sheds_pure _
      case h_2 => exact sheds_throw _
  refine (sheds_ask _).bind (k := 0) (fun encoded => ?_)
  refine hCheck.bind (k := 0) (fun _ => ?_)
  refine (sheds_ask _).bind (k := 0) (fun cycles => ?_)
  exact sheds_modify (fun _ => rfl)

theorem sheds_releaseUnread
    (t : TensorId) :
    Sheds Run.turnover 0 (releaseUnread t) := by
  refine sheds_get.bind (k := 0) (fun run => ?_)
  split
  case isTrue =>
    exact (sheds_onMemory (Memory.sheds_release t false)).bind
      (fun _ => sheds_pure _)
  case isFalse => exact sheds_pure _

theorem sheds_settle
    (op : Operation)
    (origin : Option Nat) :
    Sheds Run.turnover 0 (settle op origin) := by
  have hRetire : ∀ i, Sheds Run.turnover 0 (retire op i) := by
    intro i
    exact (sheds_ask _).bind (k := 0) (fun _ => sheds_modify (fun _ => rfl))
  have hNote : ∀ t, Sheds Run.turnover 0 (noteNextUse t) := by
    intro t
    exact sheds_get.bind (fun _ => sheds_modifyMemory (fun _ => rfl))
  refine Sheds.bind (k := 0) (Sheds.forM_none (fun i => ?_) _) (fun _ => ?_)
  · exact (hRetire i).bind (fun _ => Sheds.forM_none sheds_releaseUnread _)
  · exact (Sheds.forM_none sheds_releaseUnread _).bind
      (fun _ => Sheds.forM_none hNote _)

theorem sheds_finish
    (op : Operation)
    (origin : Option Nat)
    (anchor : Nat)
    (pins : List TensorId) :
    Sheds Run.turnover 0 (finish op origin anchor pins) := by
  refine (sheds_emit op origin anchor).bind (k := 0) (fun _ => ?_)
  exact (Sheds.forM_none
    (fun t => sheds_onMemory (Memory.sheds_unpin t)) pins).bind
      (fun _ => sheds_settle op origin)

theorem sheds_reserveSpill
    (t : TensorId) :
    Sheds Run.turnover 0 (reserveSpill t) := by
  intro run
  have hGet : (get : Commit Run) run = .ok run run := rfl
  unfold reserveSpill Workbench.reserveSlot
  rw [bind_of_ok hGet]
  cases run.bench.tensors.fetch t with
  | error e => exact .none _
  | ok tensor =>
      dsimp only
      cases run.bench.dram.allocate .dram0 tensor.layout.depth with
      | error overflow => exact .none _
      | ok found => rfl

theorem sheds_evict
    (anchor : Nat)
    (victim : TensorId) :
    Sheds Run.turnover 1 (evict anchor victim) := by
  have hLeave :
      Sheds Run.turnover 1
        (do let _ ← onMemory (Memory.spill victim); return PUnit.unit) :=
    (sheds_onMemory (Memory.sheds_spill victim)).bind (fun _ => sheds_pure _)
  refine (sheds_ask _).bind (n := 0) (k := 1) (fun tensor => ?_)
  split
  case isFalse => exact sheds_setClock.bind (fun _ => hLeave)
  case isTrue =>
    refine (sheds_reserveSpill victim).bind (k := 1) (fun _ => ?_)
    refine Sheds.bind (n := 0) (k := 1) ?_ (fun _ => hLeave)
    refine sheds_setClock.bind (k := 0) (fun _ => ?_)
    refine (sheds_pins _).bind (k := 0) (fun _ => ?_)
    exact (sheds_pure _).bind (fun _ => sheds_finish _ _ _ _)

theorem sheds_evictions
    (anchor : Nat)
    (victims : List TensorId) :
    Sheds Run.turnover victims.length (victims.forM (evict anchor)) := by
  have hAll := Sheds.forM (sheds_evict anchor) victims
  rw [Nat.mul_one] at hAll
  exact hAll

end Commit

end Systolic
