import Systolic.Proofs.Schedule.Head
import Systolic.Proofs.Schedule.NextUse
import Systolic.Proofs.Schedule.Turnover

/-
  This file proves that next uses are exact whenever a scheduler
  asks for room. For that a scheduler is watched: it takes the
  same steps, but to ask for room it also lists the request with
  the run in which it is made.

  Key definitions include:
    * `Watch`
    * `Workbench.watch`
    * `Watch.Shadows`
    * `RoomRequest.Exact`
    * `Watched.Faithful`
    * `Watched.Accounts`

  Key theorems include:
    * `Watch.next_shadows`
    * `Workbench.watch_shadows`
    * `Workbench.nextUse_exact`
-/

namespace Systolic

------------------------------------------------------------
-- Requests for Room
------------------------------------------------------------

/- A request for room: the run that makes it, and the tensor. -/
structure RoomRequest where
  run : Run
  tensor : TensorId
  entry : Tensor

/- The answer to a request for room. -/
def RoomRequest.answer
    (q : RoomRequest) : EStateM.Result MemoryError Memory Allocation :=
  Memory.allocate q.tensor q.entry.name q.entry.layout q.entry.kind
    q.run.bench.memory

/- The tensors that have to leave before a request has a place. -/
def RoomRequest.victims (q : RoomRequest) : List TensorId :=
  match q.answer with
  | .ok (.spill _ victims) _ => victims
  | _ => []

/- A request has a place. -/
def RoomRequest.isPlaced (q : RoomRequest) : Bool :=
  match q.answer with
  | .ok (.placed _) _ => true
  | _ => false

/- A run with the requests for room that it has made, newest first. -/
structure Watched where
  run : Run
  requests : List RoomRequest

/- A request for room that is made now. -/
def Watched.request
    (s : Watched)
    (t : TensorId)
    (entry : Tensor) : RoomRequest :=
  { run := s.run, tensor := t, entry }

/- List a request that is made now. -/
def Watched.ask
    (s : Watched)
    (t : TensorId)
    (entry : Tensor) : Watched :=
  { s with requests := s.request t entry :: s.requests }

/- A step of a scheduler that is watched. -/
abbrev Watch (α : Type) :=
  EStateM CompileError Watched α

namespace Watch

variable {α β : Type}

/- A step that makes no request for room. -/
def lift (action : Commit α) : Watch α := fun s =>
  match action s.run with
  | .ok a run => .ok a { s with run }
  | .error e run => .error e { s with run }

instance : MonadLift Commit Watch := ⟨lift⟩

/- List a request for room, and make it. -/
def allocate
    (t : TensorId)
    (entry : Tensor) : Watch Allocation := do
  modify (·.ask t entry)
  lift (Commit.allocate t entry)

end Watch

/- Schedule a program, and list the requests for room, newest first. -/
def Workbench.watch
    (program : List Operation)
    (lookahead : Nat)
    (bench : Workbench) :
    EStateM.Result CompileError Workbench Schedule × List RoomRequest :=
  match checkProgram bench.machine bench.tensors 0 [] UnitCycles.zero program with
  | .error e => (.error e bench, [])
  | .ok backlog =>
      let start := { run := Run.start bench program backlog, requests := [] }
      match Asking.all Watch.allocate program lookahead start with
      | .ok _ s => (.ok s.run.schedule s.run.bench, s.requests)
      | .error e s => (.error e s.run.bench, s.requests)

------------------------------------------------------------
-- Shadows
------------------------------------------------------------

namespace Watch

variable {α β : Type} {Fails : Watched → Prop} {s : Watched}
variable {action : Commit α} {Q : α → Watched → Prop}

/-
  A watched step ends like a step. If it ends well, it ensures a
  postcondition, and otherwise a condition of what it leaves.
-/
def Shadows
    (Fails : Watched → Prop)
    (watched : Watch α)
    (action : Commit α)
    (s : Watched)
    (Q : α → Watched → Prop) : Prop :=
  match action s.run with
  | .ok a run =>
      ∃ requests, watched s = .ok a { run, requests } ∧
        Q a { run, requests }
  | .error e run =>
      ∃ requests, watched s = .error e { run, requests } ∧
        Fails { run, requests }

theorem shadows_lift
    (hFails : ∀ e run, action s.run = .error e run → Fails { s with run })
    (hAction : ∀ a run, action s.run = .ok a run → Q a { s with run }) :
    Shadows Fails (lift action) action s Q := by
  unfold Shadows lift
  cases hRun : action s.run with
  | ok a run => exact ⟨s.requests, rfl, hAction a run hRun⟩
  | error e run => exact ⟨s.requests, rfl, hFails e run hRun⟩

theorem shadows_pure
    {a : α}
    (hQ : Q a s) :
    Shadows Fails (pure a) (pure a) s Q :=
  ⟨s.requests, rfl, hQ⟩

/- A request is listed with the run in which it is made. -/
theorem shadows_allocate
    {t : TensorId}
    {entry : Tensor}
    {Q : Allocation → Watched → Prop}
    (hFails :
      ∀ e m, (s.request t entry).answer = .error e m →
        Fails { s.ask t entry with run := s.run.setMemory m })
    (hQ :
      ∀ result m, (s.request t entry).answer = .ok result m →
        Q result { s.ask t entry with run := s.run.setMemory m }) :
    Shadows Fails (allocate t entry) (Commit.allocate t entry) s Q := by
  have hLift :
      Shadows Fails (lift (Commit.allocate t entry))
        (Commit.allocate t entry) (s.ask t entry) Q := by
    refine shadows_lift ?_ ?_
    all_goals unfold Commit.allocate Commit.onMemory
    · intro e run hRun
      split at hRun
      case h_1 => cases hRun
      case h_2 e' m hAnswer =>
        cases hRun
        exact hFails e' m hAnswer
    · intro result run hRun
      split at hRun
      case h_1 result' m hAnswer =>
        cases hRun
        exact hQ result m hAnswer
      case h_2 => cases hRun
  exact hLift

theorem Shadows.weaken
    {watched : Watch α}
    {Q' : α → Watched → Prop}
    (hShadows : Shadows Fails watched action s Q)
    (hQ : ∀ a s', Q a s' → Q' a s') :
    Shadows Fails watched action s Q' := by
  unfold Shadows at hShadows ⊢
  cases hRun : action s.run with
  | ok a run =>
      rw [hRun] at hShadows
      rcases hShadows with ⟨requests, hEnd, hPost⟩
      exact ⟨requests, hEnd, hQ _ _ hPost⟩
  | error e run =>
      rw [hRun] at hShadows
      exact hShadows

theorem Shadows.bind
    {watched : Watch α}
    {watched' : α → Watch β}
    {action' : α → Commit β}
    {R : α → Watched → Prop}
    {Q : β → Watched → Prop}
    (hFirst : Shadows Fails watched action s R)
    (hThen :
      ∀ a s', R a s' → Shadows Fails (watched' a) (action' a) s' Q) :
    Shadows Fails (watched >>= watched') (action >>= action') s Q := by
  unfold Shadows at hFirst
  cases hRun : action s.run with
  | error e run =>
      rw [hRun] at hFirst
      rcases hFirst with ⟨requests, hEnd, hFails⟩
      unfold Shadows
      rw [bind_of_error hRun, bind_of_error hEnd]
      exact ⟨requests, rfl, hFails⟩
  | ok a run =>
      rw [hRun] at hFirst
      rcases hFirst with ⟨requests, hEnd, hPost⟩
      have hLater := hThen a _ hPost
      unfold Shadows at hLater ⊢
      rw [bind_of_ok hRun, bind_of_ok hEnd]
      exact hLater

theorem Shadows.forM
    {watched : α → Watch PUnit}
    {action : α → Commit PUnit}
    (I : Watched → Prop)
    (hStart : I s)
    (hEach :
      ∀ a s, I s → Shadows Fails (watched a) (action a) s (fun _ => I))
    (l : List α) :
    Shadows Fails (l.forM watched) (l.forM action) s (fun _ => I) := by
  induction l generalizing s with
  | nil => exact shadows_pure hStart
  | cons a l ih =>
      exact (hEach a s hStart).bind (fun _ _ hNext => ih hNext)

/- The state is read as it is. -/
theorem shadows_get_bind
    {watched : Run → Watch β}
    {action : Run → Commit β}
    {Q : β → Watched → Prop}
    (hThen : Shadows Fails (watched s.run) (action s.run) s Q) :
    Shadows Fails (lift get >>= watched) (get >>= action) s Q :=
  hThen

end Watch

------------------------------------------------------------
-- Exact Requests
------------------------------------------------------------

/-
  A request is exact: the run that makes it has listed what is
  pending of a program, and no next use is stale.
-/
structure RoomRequest.Exact
    (program : List Operation)
    (q : RoomRequest) : Prop where
  lists : q.run.Lists program
  tracks : q.run.Tracks [] []

/- What was placed and what left according to a list of requests. -/
def RoomRequest.turnover (requests : List RoomRequest) : Nat × Nat :=
  (requests.countP (·.isPlaced),
    (requests.flatMap (·.victims)).length)

theorem RoomRequest.turnover_cons
    (q : RoomRequest)
    (requests : List RoomRequest) :
    turnover (q :: requests) =
      match q.answer with
      | .ok (.placed _) _ =>
          ((turnover requests).1 + 1, (turnover requests).2)
      | .ok (.spill _ victims) _ =>
          ((turnover requests).1, (turnover requests).2 + victims.length)
      | .error _ _ => turnover requests := by
  cases hAnswer : q.answer with
  | error e m => simp [turnover, isPlaced, victims, hAnswer]
  | ok result m =>
      cases result <;>
        simp [turnover, isPlaced, victims, hAnswer, Nat.add_comm]

theorem RoomRequest.turnover_tail_le
    (requests : List RoomRequest) :
    (turnover requests.tail).2 ≤ (turnover requests).2 := by
  cases requests with
  | nil => exact Nat.le_refl _
  | cons q requests => simp [turnover]

/-
  All requests so far are exact and were carried out, in a run
  that has added something to another one. The next uses of some
  tensors are not noted yet.
-/
structure Watched.Faithful
    (program : List Operation)
    (start : Run)
    (new : List TensorId)
    (s : Watched) : Prop where
  injects : start.Injects s.run
  tracks : s.run.Tracks new new
  counted : s.run.turnover = RoomRequest.turnover s.requests
  exact : ∀ q ∈ s.requests, q.Exact program

/-
  All requests so far are exact and were carried out, except
  that not all victims of the newest one need have left.
-/
structure Watched.Accounts
    (program : List Operation)
    (s : Watched) : Prop where
  exact : ∀ q ∈ s.requests, q.Exact program
  placed : s.run.turnover.1 = (RoomRequest.turnover s.requests).1
  least : (RoomRequest.turnover s.requests.tail).2 ≤ s.run.turnover.2
  most : s.run.turnover.2 ≤ (RoomRequest.turnover s.requests).2

theorem Watched.Accounts.of_counted
    {program : List Operation}
    {s : Watched}
    (hExact : ∀ q ∈ s.requests, q.Exact program)
    (hCounted : s.run.turnover = RoomRequest.turnover s.requests) :
    s.Accounts program := by
  refine ⟨hExact, congrArg Prod.fst hCounted, ?_,
    (congrArg Prod.snd hCounted).le⟩
  rw [hCounted]
  exact RoomRequest.turnover_tail_le s.requests

namespace Watched.Faithful

variable {program : List Operation} {start : Run} {new : List TensorId}
variable {s : Watched}

/- A request that is made now is exact. -/
theorem exact_ask
    (hFaithful : s.Faithful program start [])
    (hLists : start.Lists program)
    (t : TensorId)
    (entry : Tensor) :
    ∀ q ∈ (s.ask t entry).requests, q.Exact program :=
  List.forall_mem_cons.mpr
    ⟨⟨hLists.injects hFaithful.injects, hFaithful.tracks⟩, hFaithful.exact⟩

end Watched.Faithful

namespace Watch

variable {α : Type} {program : List Operation} {start : Run} {s : Watched}
variable {new : List TensorId} {anchor : Nat} {t : TensorId}

/- A step that lets no tensor leave keeps the account. -/
theorem shadows_quiet
    {action : Commit α}
    {Q : α → Watched → Prop}
    (hFaithful : s.Faithful program start new)
    (hSheds : Sheds Run.turnover 0 action)
    (hAction :
      Ensures action s.run (fun _ => True)
        (fun a run => run.turnover = s.run.turnover → Q a { s with run })) :
    Shadows (Watched.Accounts program) (lift action) action s Q := by
  have hCounts := hSheds s.run
  refine shadows_lift ?_ ?_
  · intro e run hRun
    rw [hRun] at hCounts
    rcases hCounts with ⟨hPlaced, hLeast, hMost⟩
    have hSame : run.turnover = s.run.turnover :=
      Prod.ext hPlaced (Nat.le_antisymm hMost hLeast)
    exact .of_counted hFaithful.exact (hSame.trans hFaithful.counted)
  · intro a run hRun
    rw [hRun] at hCounts
    exact hAction.of_ok hRun hCounts

theorem setClock_shadows
    (hFaithful : s.Faithful program start new) :
    Shadows (Watched.Accounts program) (lift Commit.setClock)
      Commit.setClock s (fun _ s' => s'.Faithful program start new) :=
  shadows_quiet hFaithful Commit.sheds_setClock
    (fun _ => ⟨hFaithful.injects.setClock s.run.position,
      hFaithful.tracks.setMemory (Memory.inherits_setClock _ _),
      hFaithful.counted, hFaithful.exact⟩)

section

variable (hLists : start.Lists program)
include hLists

section

variable (hFaithful : s.Faithful program start [])
include hFaithful

/- A request that is made now is exact, and it is counted. -/
theorem allocate_shadows
    (entry : Tensor) :
    Shadows (Watched.Accounts program) (allocate t entry)
      (Commit.allocate t entry) s
      (fun result s' =>
        match result with
        | .placed _ => s'.Faithful program start [t]
        | .spill kind victims =>
            s' = s.ask t entry ∧
              ∃ m, (s.request t entry).answer =
                .ok (.spill kind victims) m) := by
  have hExact := hFaithful.exact_ask hLists t entry
  have hTurnover :=
    RoomRequest.turnover_cons (s.request t entry) s.requests
  have hCounts :
      match (s.request t entry).answer with
      | .ok (.placed _) m =>
          m.turnover = (s.run.turnover.1 + 1, s.run.turnover.2)
      | .ok (.spill _ _) m => m.turnover = s.run.turnover
      | .error _ m => m.turnover = s.run.turnover :=
    s.run.bench.memory.turnover_allocate t entry.name entry.layout entry.kind
  rw [← hFaithful.counted] at hTurnover
  refine shadows_allocate ?_ ?_
  · intro e m hAnswer
    rw [hAnswer] at hTurnover hCounts
    exact .of_counted hExact (hCounts.trans hTurnover.symm)
  · intro result m hAnswer
    rw [hAnswer] at hTurnover hCounts
    have hCalm := Memory.allocate_calm.of_ok hAnswer
    have hGives := Memory.allocate_inherits.of_ok hAnswer
    cases result with
    | placed address =>
        exact ⟨hFaithful.injects.touches ⟨m, hCalm, rfl⟩,
          hFaithful.tracks.setMemory hGives, hCounts.trans hTurnover.symm,
          hExact⟩
    | spill kind victims =>
        refine ⟨?_, m, hAnswer⟩
        rw [hGives.1]
        rfl

/- The victims of the last request leave. -/
theorem evictions_shadow
    {entry : Tensor}
    {kind : MemoryKind}
    {victims : List TensorId}
    {m : Memory}
    (hAnswer :
      (s.request t entry).answer = .ok (.spill kind victims) m) :
    Shadows (Watched.Accounts program)
      (lift (victims.forM (Commit.evict anchor)))
      (victims.forM (Commit.evict anchor)) (s.ask t entry)
      (fun _ s' => s'.Faithful program start []) := by
  have hExact := hFaithful.exact_ask hLists t entry
  have hTurnover :=
    RoomRequest.turnover_cons (s.request t entry) s.requests
  rw [hAnswer, ← hFaithful.counted] at hTurnover
  have hCounts := Commit.sheds_evictions anchor victims s.run
  have hLeave :
      Ensures (victims.forM (Commit.evict anchor)) s.run (fun _ => True)
        (fun _ run => start.Injects run ∧ run.Tracks [] []) :=
    Ensures.forM (fun _ run => start.Injects run ∧ run.Tracks [] [])
      ⟨hFaithful.injects, hFaithful.tracks⟩
      (fun _ _ _ hBoth => ((Commit.evict_injects hBoth.1).and
        (Commit.evict_tracks hBoth.2)).mono (fun _ _ h => h) (fun _ _ => trivial))
  refine shadows_lift ?_ ?_
  · intro e run hRun
    change victims.forM (Commit.evict anchor) s.run = _ at hRun
    rw [hRun] at hCounts
    rcases hCounts with ⟨hPlaced, hLeast, hMost⟩
    refine ⟨hExact, ?_, ?_, ?_⟩
    · exact hPlaced.trans (congrArg Prod.fst hTurnover).symm
    · exact (congrArg Prod.snd hFaithful.counted).symm.le.trans hLeast
    · exact hMost.trans (congrArg Prod.snd hTurnover).symm.le
  · intro a run hRun
    change victims.forM (Commit.evict anchor) s.run = _ at hRun
    rw [hRun] at hCounts
    rcases hLeave.of_ok hRun with ⟨hInjects, hTracks⟩
    exact ⟨hInjects, hTracks, hCounts.trans hTurnover.symm, hExact⟩

/- Whatever is asked for while a tensor is placed is exact. -/
theorem placeWithin_shadows
    {rounds : Nat} :
    Shadows (Watched.Accounts program)
      (Asking.placeWithin allocate anchor t rounds)
      (Asking.placeWithin Commit.allocate anchor t rounds) s
      (fun _ s' => s'.Faithful program start [t]) := by
  have hFetch :
      ∀ s : Watched, s.Faithful program start [] →
        Shadows (Watched.Accounts program) (lift (Commit.fetch t))
          (Commit.fetch t) s (fun _ s' => s' = s) := by
    intro s hFaithful
    refine shadows_quiet hFaithful (Commit.sheds_ask _) ?_
    unfold Commit.fetch
    rw [Commit.ensures_ask]
    exact Yields.of_forall (fun _ _ _ => rfl)
  induction rounds generalizing s with
  | zero =>
      refine shadows_quiet hFaithful ?_ ?_
      · refine (Commit.sheds_ask _).bind (k := 0) (fun _ => ?_)
        exact sheds_get.bind (k := 0) (fun _ => sheds_throw _)
      · unfold Commit.fetch
        simp only [monadLift_self, ensures_bind, Commit.ensures_ask,
          ensures_get, ensures_throw]
        exact Yields.of_forall (fun _ _ => trivial)
  | succ rounds ih =>
      unfold Asking.placeWithin
      refine (hFetch s hFaithful).bind ?_
      rintro entry s₀ rfl
      refine (allocate_shadows hLists hFaithful entry).bind ?_
      intro result s₁ hResult
      cases result with
      | placed address => exact shadows_pure hResult
      | spill kind victims =>
          rcases hResult with ⟨rfl, m, hAnswer⟩
          refine (evictions_shadow hLists hFaithful hAnswer).bind ?_
          intro _ s₂ hFaithful₂
          refine (setClock_shadows hFaithful₂).bind ?_
          exact fun _ _ hFaithful₃ => ih hFaithful₃

/- Whatever is asked for while an operation is committed is exact. -/
theorem operation_shadows
    {op : Operation}
    {origin : Option Nat}
    {kept : List TensorId}
    (hOrigin : ∀ i ∈ origin, (i, op) ∈ start.pending) :
    Shadows (Watched.Accounts program)
      (Asking.operation allocate op origin anchor kept)
      (Commit.operation op origin anchor kept) s
      (fun _ s' => ∃ run, start.Injects run ∧
        run.Enters op origin s'.run ∧ s'.run.Tracks [] [] ∧
        s'.run.turnover = RoomRequest.turnover s'.requests ∧
        ∀ q ∈ s'.requests, q.Exact program) := by
  unfold Commit.operation Asking.operation Asking.perform
  refine (setClock_shadows hFaithful).bind ?_
  intro _ s₁ hFaithful₁
  have hPins :
      Ensures
        ((op.reads ++ kept).forM (fun t => Commit.onMemory (Memory.pin t)))
        s₁.run (fun _ => True)
        (fun _ run => start.Injects run ∧ run.Tracks [] []) := by
    refine Ensures.forM (fun _ run => start.Injects run ∧ run.Tracks [] [])
      ⟨hFaithful₁.injects, hFaithful₁.tracks⟩ ?_
    rintro u _ run ⟨hInjects, hTracks⟩
    exact Commit.onMemory_ensures (Memory.pin_calm.and Memory.pin_inherits)
      (fun _ _ => trivial)
      (fun _ m hBoth => ⟨hInjects.touches ⟨m, hBoth.1.1, rfl⟩,
        hTracks.setMemory hBoth.2⟩)
  refine (shadows_quiet hFaithful₁ (Commit.sheds_pins _)
    (hPins.weaken (fun _ run hBoth hTurnover =>
      (⟨hBoth.1, hBoth.2, hTurnover.trans hFaithful₁.counted,
        hFaithful₁.exact⟩ :
          Watched.Faithful program start [] { s₁ with run })))).bind ?_
  intro _ s₂ hFaithful₂
  have hPlace :
      Shadows (Watched.Accounts program)
        (op.writes.toList.forM (Asking.placeResult allocate anchor))
        (op.writes.toList.forM (Asking.placeResult Commit.allocate anchor)) s₂
        (fun _ s₃ => s₃.Faithful program start op.writes.toList) := by
    cases op.writes with
    | none => exact shadows_pure hFaithful₂
    | some u =>
        have hOne :
            Shadows (Watched.Accounts program)
              (Asking.placeResult allocate anchor u)
              (Asking.placeResult Commit.allocate anchor u) s₂
              (fun _ s₃ => s₃.Faithful program start [u]) :=
          shadows_get_bind (placeWithin_shadows hLists hFaithful₂)
        exact hOne.bind (fun _ _ hFaithful₃ => shadows_pure hFaithful₃)
  refine hPlace.bind ?_
  intro _ s₃ hFaithful₃
  have hOnly :
      ∀ i ∈ origin, ∀ op', (i, op') ∈ s₃.run.pending → op' = op := by
    intro i hI op' hMem
    rw [hFaithful₃.injects.pending] at hMem
    exact hLists.eq_of_mem (hOrigin i hI) hMem
  refine shadows_quiet hFaithful₃ (Commit.sheds_finish op origin anchor _)
    (((Commit.finish_tracks op origin anchor _ hFaithful₃.tracks hOnly).and
      (Commit.finish_enters s₃.run op origin anchor _)).mono ?_
        (fun _ _ => trivial))
  exact fun _ _ hBoth hTurnover =>
    ⟨s₃.run, hFaithful₃.injects, hBoth.2, hBoth.1,
      hTurnover.trans hFaithful₃.counted, hFaithful₃.exact⟩

theorem bringBack_shadows
    {reads : List TensorId} :
    Shadows (Watched.Accounts program)
      (Asking.bringBack allocate anchor reads t)
      (Commit.bringBack anchor reads t) s
      (fun _ s' => s'.Faithful program start []) := by
  unfold Commit.bringBack Asking.bringBack
  refine shadows_get_bind ?_
  dsimp only
  split
  case isFalse => exact shadows_pure hFaithful
  case isTrue =>
    refine (operation_shadows hLists hFaithful (by simp)).weaken ?_
    rintro _ s' ⟨run, hInjects, hEnters, hTracks, hCounted, hExact⟩
    exact ⟨hInjects.enter hEnters rfl, hTracks, hCounted, hExact⟩

end

end

/- One round asks for room in exact runs only. -/
theorem next_shadows
    (window : Nat)
    (hLists : s.run.Lists program)
    (hFaithful : s.Faithful program s.run []) :
    Shadows (Watched.Accounts program) (Asking.next allocate window)
      (Commit.next window) s
      (fun _ s' => s'.run.Lists program ∧ s'.Faithful program s'.run []) := by
  unfold Commit.next Asking.next
  refine shadows_get_bind ?_
  dsimp only
  cases hPending : s.run.pending with
  | nil => exact shadows_pure ⟨hLists, hFaithful⟩
  | cons oldest rest =>
      have hSelect :
          Shadows (Watched.Accounts program)
            (lift (Commit.ofExcept (s.run.select window oldest)))
            (Commit.ofExcept (s.run.select window oldest)) s
            (fun chosen s' => chosen ∈ s.run.pending ∧ s' = s) := by
        refine shadows_quiet hFaithful (Commit.sheds_ofExcept _) ?_
        cases hSelect : s.run.select window oldest with
        | error e => trivial
        | ok chosen => exact fun _ => ⟨(Run.select_cases hSelect).1, rfl⟩
      refine hSelect.bind ?_
      rintro ⟨i, op⟩ s₀ ⟨hMem, rfl⟩
      have hBack :
          Shadows (Watched.Accounts program)
            (op.reads.forM (Asking.bringBack allocate i op.reads))
            (op.reads.forM (Commit.bringBack i op.reads)) s₀
            (fun _ s₁ => s₁.Faithful program s₀.run []) :=
        Shadows.forM (fun s₁ => s₁.Faithful program s₀.run []) hFaithful
          (fun _ _ hFaithful₁ => bringBack_shadows hLists hFaithful₁) _
      refine hBack.bind ?_
      intro _ s₁ hFaithful₁
      refine (operation_shadows hLists hFaithful₁ ?_).weaken ?_
      · intro k hK
        cases hK
        exact hMem
      · rintro _ s' ⟨run, hInjects, hEnters, hTracks, hCounted, hExact⟩
        exact ⟨(hLists.injects hInjects).enter hEnters, .refl s'.run,
          hTracks, hCounted, hExact⟩

/- All rounds ask for room in exact runs only. -/
theorem all_shadows
    (lookahead : Nat)
    (hLists : s.run.Lists program)
    (hFaithful : s.Faithful program s.run []) :
    Shadows (Watched.Accounts program)
      (Asking.all allocate program lookahead)
      (Commit.all program lookahead) s
      (fun _ s' => s'.Faithful program s'.run []) := by
  unfold Commit.all Asking.all
  refine (Shadows.forM
    (fun s => s.run.Lists program ∧ s.Faithful program s.run [])
    ⟨hLists, hFaithful⟩
    (fun _ _ hBoth => next_shadows _ hBoth.1 hBoth.2) _).bind ?_
  rintro _ s' ⟨-, hFaithful'⟩
  have hAudit : Sheds Run.turnover 0 Commit.audit := by
    refine sheds_get.bind (k := 0) (fun run => ?_)
    split
    case h_1 => exact sheds_pure _
    case h_2 => exact sheds_throw _
  refine shadows_quiet hFaithful' hAudit ?_
  change Ensures Commit.audit s'.run _ _
  simp only [Commit.audit, ensures_bind, ensures_get]
  split
  case h_1 => exact fun _ => hFaithful'
  case h_2 => trivial

end Watch

/-
  A watched scheduler gives the same schedule, or the same error.
  It lists exact requests only. If it ends well, they were all
  carried out, and otherwise all but perhaps the newest one.
-/
theorem Workbench.watch_shadows
    {program : List Operation}
    {lookahead near far : Nat}
    {bench : Workbench}
    (hEmpty : bench.memory = .empty near far) :
    (watch program lookahead bench).1 = schedule program lookahead bench ∧
    (∀ q ∈ (watch program lookahead bench).2, q.Exact program) ∧
    (∀ s bench', schedule program lookahead bench = .ok s bench' →
      bench'.memory.turnover =
        RoomRequest.turnover (watch program lookahead bench).2) ∧
    ∀ e bench', schedule program lookahead bench = .error e bench' →
      bench'.memory.turnover.1 =
          (RoomRequest.turnover (watch program lookahead bench).2).1 ∧
        (RoomRequest.turnover (watch program lookahead bench).2.tail).2 ≤
          bench'.memory.turnover.2 ∧
        bench'.memory.turnover.2 ≤
          (RoomRequest.turnover (watch program lookahead bench).2).2 := by
  have hNone : bench.memory.turnover = (0, 0) := by
    rw [hEmpty]
    rfl
  unfold watch schedule
  cases hCheck : checkProgram bench.machine bench.tensors 0 [] UnitCycles.zero
      program with
  | error e =>
      refine ⟨rfl, by simp, by simp, ?_⟩
      rintro e' bench' ⟨⟩
      rw [hNone]
      exact ⟨rfl, Nat.le_refl 0, Nat.le_refl 0⟩
  | ok backlog =>
      dsimp only
      have hStart :
          Watched.Faithful program (Run.start bench program backlog) []
            { run := Run.start bench program backlog, requests := [] } := by
        refine ⟨.refl _, ⟨?_, ?_⟩, hNone, by simp⟩
        all_goals simp [Run.start, hEmpty, Memory.empty]
      have hSteps := Watch.all_shadows
        (s := { run := Run.start bench program backlog, requests := [] })
        lookahead (.start bench program backlog) hStart
      unfold Watch.Shadows at hSteps
      dsimp only at hSteps
      split at hSteps
      case h_1 run hRun =>
        rcases hSteps with ⟨requests, hEnd, hFaithful⟩
        rw [hRun, hEnd]
        refine ⟨rfl, hFaithful.exact, ?_, by simp⟩
        rintro s bench' ⟨⟩
        exact hFaithful.counted
      case h_2 e run hRun =>
        rcases hSteps with ⟨requests, hEnd, hAccounts⟩
        rw [hRun, hEnd]
        refine ⟨rfl, hAccounts.exact, by simp, ?_⟩
        rintro e' bench' ⟨⟩
        exact ⟨hAccounts.placed, hAccounts.least, hAccounts.most⟩

namespace RoomRequest.Exact

variable {program : List Operation} {q : RoomRequest}

/- The next use of a tensor on the chip is its next reader. -/
theorem nextUse
    {r : Resident}
    (hExact : q.Exact program)
    (hMem : r ∈ q.run.bench.memory.residents) :
    ∃ i, r.nextUse = some i ∧
      IsLeast (q.run.readers program r.tensor) i := by
  have hNoted := hExact.tracks.noted r hMem List.not_mem_nil
  have hNeeded := hExact.tracks.needed r hMem List.not_mem_nil
  rcases Option.ne_none_iff_exists'.mp hNeeded with ⟨i, hUse⟩
  exact ⟨i, hNoted.trans hUse, hExact.lists.isLeast_nextUse? hUse⟩

/- The first victim is read no earlier than any that may leave. -/
theorem furthest
    {first : TensorId}
    (hExact : q.Exact program)
    (hFirst : q.victims.head? = some first) :
    ∃ v ∈ q.run.bench.memory.evictables, v.tensor = first ∧
      ∃ i, IsLeast (q.run.readers program first) i ∧
        ∀ r ∈ q.run.bench.memory.evictables,
          ∃ j ≤ i, IsLeast (q.run.readers program r.tensor) j := by
  unfold victims at hFirst
  split at hFirst
  case h_2 => cases hFirst
  case h_1 kind victims m hAnswer =>
    have hVictims := Memory.allocate_inherits.of_ok hAnswer
    rcases Memory.victims?_furthest hVictims.2 with ⟨v, hV, hHead, hRank⟩
    cases Option.some.inj (hFirst.symm.trans hHead)
    rcases hExact.nextUse (Memory.mem_evictables.mp hV).1 with
      ⟨i, hUse, hLeast⟩
    refine ⟨v, hV, rfl, i, hLeast, ?_⟩
    intro r hR
    rcases hExact.nextUse (Memory.mem_evictables.mp hR).1 with
      ⟨j, hUse', hLeast'⟩
    have hLe := hRank r hR
    simp only [Memory.useRank, hUse, hUse', Option.getD_some] at hLe
    exact ⟨j, hLe, hLeast'⟩

end RoomRequest.Exact

/-
  Whenever a scheduler that starts with empty memories asks for
  room, every tensor on the chip has its next reader noted as its
  next use: the first operation in the program that reads it and
  is not committed. The first victim, if there is one, is read no
  earlier than any other tensor that may leave. No request that
  was carried out is left out of the list, whether the schedule
  succeeds or fails. A schedule that fails may have stopped while
  the victims of its last request were leaving.
-/
theorem Workbench.nextUse_exact
    {program : List Operation}
    {lookahead near far : Nat}
    {bench : Workbench}
    (hEmpty : bench.memory = .empty near far) :
    (watch program lookahead bench).1 = schedule program lookahead bench ∧
    (∀ s bench', schedule program lookahead bench = .ok s bench' →
      bench'.memory.stats.allocations =
          (watch program lookahead bench).2.countP (·.isPlaced) ∧
        bench'.memory.stats.spills =
          ((watch program lookahead bench).2.flatMap (·.victims)).length) ∧
    (∀ e bench', schedule program lookahead bench = .error e bench' →
      bench'.memory.stats.allocations =
          (watch program lookahead bench).2.countP (·.isPlaced) ∧
        ((watch program lookahead bench).2.tail.flatMap (·.victims)).length ≤
          bench'.memory.stats.spills ∧
        bench'.memory.stats.spills ≤
          ((watch program lookahead bench).2.flatMap (·.victims)).length) ∧
    ∀ q ∈ (watch program lookahead bench).2,
      (∀ r ∈ q.run.bench.memory.residents,
        ∃ i, r.nextUse = some i ∧
          IsLeast (q.run.readers program r.tensor) i) ∧
      ∀ first, q.victims.head? = some first →
        ∃ v ∈ q.run.bench.memory.evictables, v.tensor = first ∧
          ∃ i, IsLeast (q.run.readers program first) i ∧
            ∀ r ∈ q.run.bench.memory.evictables,
              ∃ j ≤ i, IsLeast (q.run.readers program r.tensor) j := by
  rcases watch_shadows hEmpty with ⟨hSame, hExact, hTurnover, hFailed⟩
  refine ⟨hSame, ?_, hFailed, ?_⟩
  · intro s bench' hSchedule
    exact Prod.mk.inj (hTurnover s bench' hSchedule)
  · intro q hQ
    exact ⟨fun r hMem => (hExact q hQ).nextUse hMem,
      fun first hFirst => (hExact q hQ).furthest hFirst⟩

/-
  With two vectors on the chip, the third input meets two tensors
  that are still to be read. The one that is read later leaves.
-/
theorem Workbench.nextUse_exact_nestedSum :
    ∃ (x : Scheduled) (q : RoomRequest),
      x.before.memory = .empty 2 1 ∧
      (watch x.program 8 x.before).1 = .ok x.schedule x.after ∧
      q ∈ (watch x.program 8 x.before).2 ∧
      q.victims = [⟨2⟩] ∧
      q.run.bench.memory.evictables.map (fun r => (r.tensor, r.nextUse)) =
        [(⟨2⟩, some 12), (⟨5⟩, some 9)] ∧
      IsLeast (q.run.readers x.program ⟨2⟩) 12 ∧
      ∀ r ∈ q.run.bench.memory.evictables,
        ∃ j ≤ 12, IsLeast (q.run.readers x.program r.tensor) j := by
  have hFacts :
      (scheduleNetwork? nestedSum ["sum"]
        { oneVector with localDepth := 2 } 8).any
        (fun x => x.before.memory = .empty 2 1 ∧
          (watch x.program 8 x.before).2.any
            (fun q => q.victims = [⟨2⟩] ∧
              q.run.bench.memory.evictables.map
                (fun r => (r.tensor, r.nextUse)) =
                [(⟨2⟩, some 12), (⟨5⟩, some 9)])) = true := by
    decide +kernel
  rcases (Option.any_eq_true _ _).mp hFacts with ⟨x, hScheduled, hSeen⟩
  rcases of_decide_eq_true hSeen with ⟨hEmpty, hAny⟩
  rcases List.any_eq_true.mp hAny with ⟨q, hQ, hRequest⟩
  rcases of_decide_eq_true hRequest with ⟨hVictims, hUses⟩
  rcases nextUse_exact hEmpty with ⟨hSame, -, -, hExact⟩
  rcases hExact q hQ with ⟨hNoted, hFurthest⟩
  -- The next use of the victim is the place that was seen.
  have hVictim : IsLeast (q.run.readers x.program ⟨2⟩) 12 := by
    have hMem :
        ((⟨2⟩, some 12) : TensorId × Option Nat) ∈
          q.run.bench.memory.evictables.map
            (fun r => (r.tensor, r.nextUse)) := by
      rw [hUses]
      exact List.mem_cons_self
    rcases List.mem_map.mp hMem with ⟨r, hR, hPair⟩
    rcases Prod.mk.inj hPair with ⟨hTensor, hUse⟩
    rcases hNoted r (Memory.mem_evictables.mp hR).1 with ⟨i, hNext, hLeast⟩
    rw [hTensor] at hLeast
    cases hNext.symm.trans hUse
    exact hLeast
  rcases hFurthest ⟨2⟩ (by rw [hVictims]; rfl) with
    ⟨-, -, -, i, hLeast, hOthers⟩
  cases hLeast.unique hVictim
  have hSchedule := (scheduleNetwork?_eq_some hScheduled).2
  exact ⟨x, q, hEmpty, hSame.trans hSchedule, hQ, hVictims, hUses, hVictim,
    hOthers⟩

end Systolic
