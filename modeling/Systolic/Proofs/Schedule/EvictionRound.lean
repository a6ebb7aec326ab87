import Systolic.Proofs.Memory.Victims
import Systolic.Proofs.Schedule.Commit

/-
  This file proves that one round of evictions makes room for a
  tensor that does not fit. The victims are chosen on the free
  regions alone and evicted later, with stores of those that
  have no copy in between; the memories are then what the choice
  was made for, and the tensor is placed.

  Key definitions include:
    * `Commit.evictAndPlace`
    * `Memory.LeastVictims`
    * `Memory.EvictsLeast`

  Key theorems include:
    * `Commit.evict_lacks`
    * `Commit.forM_evict_lacks`
    * `Commit.placeWithin_eq_evictAndPlace`
    * `Memory.evictsLeast_serveAll`
-/

namespace Systolic

------------------------------------------------------------
-- Evictions in Any Run
------------------------------------------------------------

/- The task of a run of which nothing is known but its memories. -/
def Run.ownTask (run : Run) : Task :=
  { machine := run.bench.machine
    layout := run.bench.layout
    capacity := run.bench.memory.capacity
    program := run.program
    window := 0
    lowered := False }

theorem Run.sound_ownTask
    {run : Run}
    {pins : List TensorId}
    (hMemory : run.bench.memory.Sound pins) :
    run.Sound run.ownTask pins :=
  ⟨rfl, rfl, rfl, hMemory, fun _ => rfl, False.elim⟩

namespace Commit

variable {task : Task} {pins : List TensorId} {run : Run}
variable {t : TensorId} {anchor : Nat}

/- A run that tensors have left, and nothing else of the memories. -/
structure Vacates
    (task : Task)
    (pins : List TensorId)
    (run : Run)
    (gone : List TensorId)
    (run' : Run) : Prop where
  sound : run'.Sound task pins
  lacks : run.bench.memory.Lacks gone run'.bench.memory
  tensors :
    ∀ u, u ∉ gone → run'.bench.tensors.get? u = run.bench.tensors.get? u

theorem Vacates.trans
    {run₁ run₂ : Run}
    {gone gone' : List TensorId}
    (hFirst : Vacates task pins run gone run₁)
    (hSecond : Vacates task pins run₁ gone' run₂) :
    Vacates task pins run (gone ++ gone') run₂ := by
  refine ⟨hSecond.sound, hFirst.lacks.trans hSecond.lacks, ?_⟩
  intro u hStays
  rw [List.mem_append, not_or] at hStays
  exact (hSecond.tensors u hStays.2).trans (hFirst.tensors u hStays.1)

/- The binding of a tensor ends, after which it is off the chip. -/
theorem spill_vacates
    {run₁ : Run}
    (hSound : run.Sound task pins)
    (hSound₁ : run₁.Sound task pins)
    (hHistory : run₁.view.history = run.view.history)
    (hTensors :
      ∀ u, u ≠ t → run₁.bench.tensors.get? u = run.bench.tensors.get? u)
    (hEvictable : run.bench.memory.Evictable pins t) :
    Ensures (onMemory (Memory.spill t)) run₁ task.Tolerates
      (fun _ run' => Vacates task pins run [t] run') := by
  have hEvictable₁ : run₁.bench.memory.Evictable pins t := by
    rcases hEvictable with ⟨hUnpinned, b, hMem, hRest⟩
    refine ⟨hUnpinned, b, ?_, hRest⟩
    change b ∈ run₁.view.history
    rw [hHistory]
    exact hMem
  refine (spill_ensures hSound₁ hEvictable₁).weaken ?_
  rintro _ run₂ ⟨hSound₂, hJournal₂⟩
  have hClose :
      run₂.bench.memory.history =
        close run.bench.memory.history t run₁.bench.memory.clock true := by
    have hView := congrArg (fun j => j.view.history) hJournal₂
    rw [hHistory] at hView
    exact hView
  have hTable : run₂.bench.tensors = run₁.bench.tensors :=
    congrArg (fun j => j.view.tensors) hJournal₂
  constructor
  case sound => exact hSound₂
  case lacks =>
    refine .of_close ?_ hClose
    intro kind
    rw [hSound₂.capacity, hSound.capacity]
  case tensors =>
    intro u hOther
    rw [hTable]
    exact hTensors u (fun hSame => hOther (List.mem_singleton.mpr hSame))

/- An eviction that ends well leaves the memories without its victim. -/
theorem evict_lacks
    (hSound : run.Sound task pins)
    (hUnknown : ¬ task.lowered)
    (hEvictable : run.bench.memory.Evictable pins t) :
    Ensures (evict anchor t) run task.Tolerates
      (fun _ run' => Vacates task pins run [t] run') := by
  unfold evict fetch
  simp only [ensures_bind, ensures_ask]
  refine (fetch_yields (fun hLowered => absurd hLowered hUnknown)).weaken ?_
  intro tensor hEntry
  cases hCopy : tensor.dramCopy with
  | some l =>
      simp only [Option.isNone_some, Bool.false_eq_true, if_false,
        ensures_bind, ensures_setClock, ensures_pure]
      exact spill_vacates hSound
        (hSound.setMemory (hSound.memory.setClock _) (fun _ => rfl)) rfl
        (fun u _ => rfl) hEvictable
  | none =>
      simp only [Option.isNone_none, if_true, ensures_bind, ensures_pure]
      refine (reserveSpill_ensures hSound hEntry hCopy).weaken ?_
      rintro _ run₁ ⟨hSound₁, -, rfl⟩
      have hOn : run.view.OnChip t := by
        rcases hEvictable with ⟨-, b, hMem, hTensor, hOpen, -⟩
        exact ⟨b, ⟨hMem, hOpen⟩, hTensor⟩
      refine (spillOut_ensures hSound₁ hOn hEvictable.1
        (fun hLowered => absurd hLowered hUnknown)
        (fun hLowered => absurd hLowered hUnknown)).weaken ?_
      rintro _ run₂ ⟨hSound₂, hLogs₂, -⟩
      have hView₂ := hLogs₂.view_eq
      have hTable₂ := congrArg View.tensors hView₂
      have hHistory₂ : run₂.view.history = run.view.history := by
        change run₂.journal.view.history = _
        rw [hView₂]
        rfl
      refine spill_vacates hSound hSound₂ hHistory₂ ?_ hEvictable
      intro u hOther
      change run₂.journal.view.tensors.get? u = _
      rw [hTable₂]
      exact (TensorTable.get?_modify _ _ _ _).trans (if_neg hOther)

/- Evictions that end well leave the memories without the victims. -/
theorem forM_evict_lacks
    {victims : List TensorId}
    (anchor : Nat)
    (hSound : run.Sound task pins)
    (hUnknown : ¬ task.lowered)
    (hDistinct : victims.Nodup)
    (hEvictable :
      ∀ u ∈ victims, run.bench.memory.Evictable pins u) :
    Ensures (victims.forM (evict anchor)) run task.Tolerates
      (fun _ run' => Vacates task pins run victims run') := by
  refine Ensures.forM_done (Vacates task pins run)
    ⟨hSound, .refl _, fun _ _ => rfl⟩ ?_
  intro gone u rest run₁ hSplit hVacates₁
  subst hSplit
  have hStays : u ∉ gone := fun hGone =>
    List.disjoint_of_nodup_append hDistinct hGone List.mem_cons_self
  have hLeaves := hEvictable u
    (List.mem_append_right _ List.mem_cons_self)
  refine (evict_lacks hVacates₁.sound hUnknown
    (hVacates₁.lacks.evictable hLeaves hStays)).weaken ?_
  intro _ run₂ hVacates₂
  exact hVacates₁.trans hVacates₂

------------------------------------------------------------
-- One Round
------------------------------------------------------------

/- Let victims leave, and then place a tensor. -/
def evictAndPlace
    (anchor : Nat)
    (t : TensorId)
    (tensor : Tensor)
    (victims : List TensorId) : Commit Unit := do
  victims.forM (evict anchor)
  setClock
  let _ ← onMemory
    (Memory.allocate t tensor.name tensor.layout tensor.kind)

theorem fetch_of_entry
    {tensor : Tensor}
    (hEntry : run.bench.tensors.get? t = some tensor) :
    fetch t run = .ok tensor run := by
  change ofExcept (run.bench.tensors.fetch t) run = _
  rw [TensorTable.fetch_eq_ok hEntry]
  rfl

theorem onMemory_of_ok
    {α : Type}
    {action : Memory.Action α}
    {a : α}
    {m : Memory}
    (hAction : action run.bench.memory = .ok a m) :
    onMemory action run = .ok a (run.setMemory m) := by
  rw [onMemory, hAction]
  rfl

/- A tensor that fits is placed in the first round. -/
theorem placeWithin_of_placed
    {tensor : Tensor}
    {address : Nat}
    {m : Memory}
    (hEntry : run.bench.tensors.get? t = some tensor)
    (hPlaced :
      Memory.allocate t tensor.name tensor.layout tensor.kind
        run.bench.memory = .ok (.placed address) m)
    (rounds : Nat) :
    placeWithin anchor t (rounds + 1) run = .ok () (run.setMemory m) := by
  have hAsk : allocate t tensor run = .ok (.placed address) _ :=
    onMemory_of_ok hPlaced
  change (fetch t >>= fun tensor => allocate t tensor >>= _) run = _
  rw [bind_of_ok (fetch_of_entry hEntry), bind_of_ok hAsk]
  rfl

section Round

variable {tensor : Tensor} {victims : List TensorId}

/- A round of evictions that ends well leaves a place for the tensor. -/
theorem evictions_make_room
    (anchor : Nat)
    (hMemory : run.bench.memory.Sound pins)
    (hUnwrapped :
      Count.Unwrapped (run.bench.memory.capacity tensor.kind)
        tensor.layout.alignment)
    (hEntry : run.bench.tensors.get? t = some tensor)
    (hAbsent : ¬ run.bench.memory.IsResident t)
    (hSize : 0 < tensor.layout.depth)
    (hLimit :
      tensor.layout.depth ≤ run.bench.memory.capacity tensor.kind)
    (hDistinct : victims.Nodup)
    (hEvictable : ∀ u ∈ victims, run.bench.memory.Evictable pins u)
    (hRoom :
      run.bench.memory.RoomWithout tensor.kind tensor.layout.depth
        tensor.layout.alignment victims) :
    Ensures (do victims.forM (evict anchor); setClock) run (fun _ => True)
      (fun _ run' => run'.bench.tensors.get? t = some tensor ∧
        ∃ address m,
          Memory.allocate t tensor.name tensor.layout tensor.kind
            run'.bench.memory = .ok (.placed address) m) := by
  have hStays : t ∉ victims := by
    intro hNamed
    rcases hEvictable t hNamed with ⟨-, b, hMem, hTensor, hOpen, -⟩
    exact hAbsent (hMemory.isResident_iff.mpr ⟨b, hMem, hTensor, hOpen⟩)
  have hEvictions := forM_evict_lacks anchor (Run.sound_ownTask hMemory) id
    hDistinct hEvictable
  refine (hEvictions.mono (fun _ _ h => h) (fun _ _ => trivial)).bind ?_
  intro _ run₁ hVacates
  rw [ensures_setClock]
  have hMemory₂ := hVacates.sound.memory.setClock run₁.position
  have hLacks₂ :
      run.bench.memory.Lacks victims
        (run₁.bench.memory.setClock run₁.position) :=
    ⟨hVacates.lacks.capacity, hVacates.lacks.open_iff⟩
  refine ⟨(hVacates.tensors t hStays).trans hEntry, ?_⟩
  rw [← hLacks₂.capacity] at hUnwrapped
  refine (hMemory₂.placed_iff_fits tensor.name hUnwrapped
    (hLacks₂.absent hMemory hMemory₂ hAbsent) hSize ?_).mpr ?_
  · rw [hLacks₂.capacity]
    exact hLimit
  · exact hLacks₂.fits hMemory hMemory₂ (Nat.lt_of_lt_of_le hSize hLimit)
      hSize hRoom

/- However many rounds are allowed, there is one round of evictions. -/
theorem placeWithin_eq_evictAndPlace
    {kind : MemoryKind}
    (hMemory : run.bench.memory.Sound pins)
    (hUnwrapped :
      Count.Unwrapped (run.bench.memory.capacity tensor.kind)
        tensor.layout.alignment)
    (hEntry : run.bench.tensors.get? t = some tensor)
    (hAbsent : ¬ run.bench.memory.IsResident t)
    (hSize : 0 < tensor.layout.depth)
    (hLimit :
      tensor.layout.depth ≤ run.bench.memory.capacity tensor.kind)
    (hDistinct : victims.Nodup)
    (hEvictable : ∀ u ∈ victims, run.bench.memory.Evictable pins u)
    (hRoom :
      run.bench.memory.RoomWithout tensor.kind tensor.layout.depth
        tensor.layout.alignment victims)
    (hSpill :
      Memory.allocate t tensor.name tensor.layout tensor.kind
        run.bench.memory = .ok (.spill kind victims) run.bench.memory)
    (rounds : Nat) :
    placeWithin anchor t (rounds + 2) run =
      evictAndPlace anchor t tensor victims run := by
  have hRound := evictions_make_room anchor hMemory hUnwrapped hEntry
    hAbsent hSize hLimit hDistinct hEvictable hRoom
  have hAsk : allocate t tensor run = .ok (.spill kind victims) _ :=
    onMemory_of_ok hSpill
  change (fetch t >>= fun tensor => allocate t tensor >>= _) run = _
  rw [bind_of_ok (fetch_of_entry hEntry), bind_of_ok hAsk]
  change (victims.forM (evict anchor) >>=
    fun _ => setClock >>= fun _ => placeWithin anchor t (rounds + 1)) run = _
  unfold evictAndPlace
  cases hEvict : victims.forM (evict anchor) run with
  | error e run₁ => rw [bind_of_error hEvict, bind_of_error hEvict]
  | ok u run₁ =>
      rw [bind_of_ok hEvict, bind_of_ok hEvict]
      have hClock :
          setClock run₁ =
            .ok () (run₁.setMemory
              (run₁.bench.memory.setClock run₁.position)) := rfl
      rcases hRound.of_ok ((bind_of_ok hEvict).trans hClock) with
        ⟨hEntry₂, address, m, hPlaced⟩
      rw [bind_of_ok hClock, bind_of_ok hClock,
        placeWithin_of_placed hEntry₂ hPlaced,
        bind_of_ok (onMemory_of_ok hPlaced)]
      rfl

end Round

end Commit

------------------------------------------------------------
-- Requests without a Place
------------------------------------------------------------

namespace Memory

variable {m : Memory} {pins : List TensorId} {t : TensorId}
variable {name : String} {layout : VectorLayout} {kind : MemoryKind}

/-
  What is wanted of the victims of a request: they may leave,
  they are the first ones in the order of leaving, no fewer of
  these leave enough room, they can all leave, and the request
  is placed once they have left, also in a run.
-/
structure LeastVictims
    (m : Memory)
    (t : TensorId)
    (name : String)
    (layout : VectorLayout)
    (kind : MemoryKind)
    (victims : List TensorId) : Prop where
  distinct : victims.Nodup
  unpinned :
    ∀ u ∈ victims, ∃ r ∈ m.residents, r.tensor = u ∧
      r.binding.kind = .scratchpad ∧ r.pins = 0
  shortest :
    ∃ order k, m.LeavingOrder order ∧
      victims = (order.take k).map Resident.tensor ∧
      m.RoomWithout kind layout.depth layout.alignment victims ∧
      ∀ j, j < k →
        ¬ m.RoomWithout kind layout.depth layout.alignment
          ((order.take j).map Resident.tensor)
  unordered :
    ∀ residents, residents.Perm m.residents →
      allocate t name layout kind { m with residents } =
        .ok (.spill kind victims) { m with residents }
  sufficient :
    ∃ m₁ address m₂,
      victims.forM (fun u => discard (spill u)) m = .ok () m₁ ∧
        allocate t name layout kind m₁ = .ok (.placed address) m₂
  oneRound :
    ∀ (run : Run) (tensor : Tensor) (anchor rounds : Nat),
      run.bench.memory = m → run.bench.tensors.get? t = some tensor →
      tensor.name = name → tensor.layout = layout → tensor.kind = kind →
        Commit.placeWithin anchor t (rounds + 2) run =
            Commit.evictAndPlace anchor t tensor victims run ∧
          Ensures
            (do victims.forM (Commit.evict anchor); Commit.setClock) run
            (fun _ => True)
            (fun _ run' => ∃ address m',
              allocate t name layout kind run'.bench.memory =
                .ok (.placed address) m')

/-
  What is wanted of the answer to a request without a place. In
  the accumulator memory it is refused. In the scratchpad it is
  refused only if it has no place without all tensors that may
  leave.
-/
structure EvictsLeast
    (m : Memory)
    (t : TensorId)
    (name : String)
    (layout : VectorLayout)
    (kind : MemoryKind) : Prop where
  accumulator :
    kind = .accumulator →
      allocate t name layout kind m =
        .error (.outOfMemory name kind layout.depth (m.capacity kind)) m
  spill_iff :
    kind = .scratchpad →
      ((∃ victims,
          allocate t name layout kind m = .ok (.spill kind victims) m) ↔
        m.RoomWithout kind layout.depth layout.alignment
          (m.evictables.map Resident.tensor))
  refused_iff :
    kind = .scratchpad →
      (allocate t name layout kind m =
          .error (.outOfMemory name kind layout.depth (m.capacity kind)) m ↔
        ¬ m.RoomWithout kind layout.depth layout.alignment
          (m.evictables.map Resident.tensor))
  victims :
    ∀ victims m',
      allocate t name layout kind m = .ok (.spill kind victims) m' →
        m.LeastVictims t name layout kind victims
  order_unique :
    ∀ order order', m.LeavingOrder order → m.LeavingOrder order' →
      order = order'
  furthest :
    ∀ r s, r.nextUse = none → (∀ n ∈ s.nextUse, n ≤ Count.largest) →
      useRank s ≤ useRank r

theorem roomWithout_nil_iff
    {size alignment : Nat} :
    m.RoomWithout kind size alignment [] ↔
      HasPlace (m.capacity kind) (regions m.residents kind) size
        alignment := by
  have hAll : without m.residents [] = m.residents := by simp [without]
  rw [RoomWithout, hAll]

theorem Sound.bestFit_eq_none
    (hSound : m.Sound pins)
    (hUnwrapped : Count.Unwrapped (m.capacity kind) layout.alignment)
    (hSize : 0 < layout.depth)
    (hLimit : layout.depth ≤ m.capacity kind)
    (hCrowded :
      ¬ HasPlace (m.capacity kind) (regions m.residents kind) layout.depth
        layout.alignment) :
    (m.freeList kind).bestFit layout.depth layout.alignment = none := by
  rw [← Option.not_isSome_iff_eq_none]
  rw [(hSound.shares kind).bestFit_isSome_iff hUnwrapped
    (Nat.lt_of_lt_of_le hSize hLimit) hSize]
  exact hCrowded

/- The listing of the tensors on the chip does not change the victims. -/
theorem Sound.allocate_perm
    {residents : List Resident}
    {victims : List TensorId}
    (hSound : m.Sound pins)
    (hAbsent : ¬ m.IsResident t)
    (hSize : 0 < layout.depth)
    (hLimit : layout.depth ≤ m.capacity kind)
    (hFit :
      (m.freeList kind).bestFit layout.depth layout.alignment = none)
    (hVictims :
      m.victims? kind layout.depth layout.alignment = some victims)
    (hPerm : residents.Perm m.residents) :
    allocate t name layout kind { m with residents } =
      .ok (.spill kind victims) { m with residents } := by
  have hAbsent' : ¬ IsResident { m with residents } t := by
    intro hResident
    rcases isResident_iff_mem.mp hResident with ⟨r, hMem, hTensor⟩
    exact hAbsent
      (isResident_iff_mem.mpr ⟨r, hPerm.mem_iff.mp hMem, hTensor⟩)
  have hFit' :
      (freeList { m with residents } kind).bestFit layout.depth
        layout.alignment = none := by
    cases kind <;> exact hFit
  have hLimit' : layout.depth ≤ capacity { m with residents } kind := by
    cases kind <;> exact hLimit
  rw [allocate_of_unfit name hAbsent' hSize hLimit' hFit',
    hSound.victims?_perm hPerm, hVictims]

theorem Sound.leastVictims
    {victims : List TensorId}
    (hSound : m.Sound pins)
    (name : String)
    (hUnwrapped : Count.Unwrapped (m.capacity kind) layout.alignment)
    (hAbsent : ¬ m.IsResident t)
    (hSize : 0 < layout.depth)
    (hLimit : layout.depth ≤ m.capacity kind)
    (hCrowded :
      ¬ HasPlace (m.capacity kind) (regions m.residents kind) layout.depth
        layout.alignment)
    (hVictims :
      m.victims? kind layout.depth layout.alignment = some victims) :
    m.LeastVictims t name layout kind victims := by
  have hFit := hSound.bestFit_eq_none hUnwrapped hSize hLimit hCrowded
  have hSpill :
      ∀ name, allocate t name layout kind m =
        .ok (.spill kind victims) m := by
    intro name
    rw [allocate_of_unfit name hAbsent hSize hLimit hFit, hVictims]
  have hScratchpad : kind = .scratchpad := by
    cases kind with
    | scratchpad => rfl
    | accumulator => cases hVictims
  subst hScratchpad
  have hPos : 0 < m.capacity .scratchpad := Nat.lt_of_lt_of_le hSize hLimit
  have hOrder := m.leavingOrder_candidates
  rcases hSound.victims?_spec hVictims with ⟨hDistinct, hEvictable⟩
  rcases hSound.victims?_eq_some hOrder hUnwrapped hPos hSize
      hVictims with
    ⟨k, hTake, hRoom, hFewer⟩
  constructor
  case distinct => exact hDistinct
  case unpinned =>
    intro u hU
    rw [hTake] at hU
    rcases List.mem_map.mp hU with ⟨r, hR, hTensor⟩
    rcases mem_evictables.mp
        (hOrder.perm.mem_iff.mp (List.mem_of_mem_take hR)) with
      ⟨hMem, hKind, hPins⟩
    exact ⟨r, hMem, hTensor, hKind, hPins⟩
  case shortest =>
    refine ⟨m.candidates, k, hOrder, hTake, hRoom, ?_⟩
    intro j hBelow
    rcases Nat.eq_zero_or_pos j with rfl | hJ
    · exact fun hNone => hCrowded (roomWithout_nil_iff.mp hNone)
    · exact hFewer j hJ hBelow
  case unordered =>
    exact fun residents =>
      hSound.allocate_perm hAbsent hSize hLimit hFit hVictims
  case sufficient =>
    have hLeave := hSound.forM_spill_ensures (E := fun _ => False)
      hDistinct hEvictable
    cases hRun : victims.forM (fun u => discard (spill u)) m with
    | error e m₁ => exact (hLeave.of_error hRun).elim
    | ok u m₁ =>
        rcases hLeave.of_ok hRun with ⟨hSound₁, hLacks⟩
        have hFits := hLacks.fits hSound hSound₁ hPos hSize hRoom
        rcases (hSound₁.placed_iff_fits name
            (hLacks.capacity _ ▸ hUnwrapped)
            (hLacks.absent hSound hSound₁ hAbsent) hSize
            (hLacks.capacity _ ▸ hLimit)).mpr hFits with
          ⟨address, m₂, hPlaced⟩
        exact ⟨m₁, address, m₂, rfl, hPlaced⟩
  case oneRound =>
    intro run tensor anchor rounds hMemory hEntry hName hLayout hKind
    subst hMemory hName hLayout
    rw [← hKind] at hUnwrapped hLimit hRoom hSpill ⊢
    refine ⟨Commit.placeWithin_eq_evictAndPlace hSound hUnwrapped hEntry
      hAbsent hSize hLimit hDistinct hEvictable hRoom (hSpill tensor.name)
      rounds, ?_⟩
    refine (Commit.evictions_make_room anchor hSound hUnwrapped hEntry
      hAbsent hSize hLimit hDistinct hEvictable hRoom).weaken ?_
    exact fun _ run' hMade => hMade.2

theorem Sound.evictsLeast
    (hSound : m.Sound pins)
    (hUnwrapped : Count.Unwrapped (m.capacity kind) layout.alignment)
    (hAbsent : ¬ m.IsResident t)
    (hSize : 0 < layout.depth)
    (hLimit : layout.depth ≤ m.capacity kind)
    (hCrowded :
      ¬ HasPlace (m.capacity kind) (regions m.residents kind) layout.depth
        layout.alignment) :
    m.EvictsLeast t name layout kind := by
  have hFit := hSound.bestFit_eq_none hUnwrapped hSize hLimit hCrowded
  have hAnswer := allocate_of_unfit name hAbsent hSize hLimit hFit
  have hRoom_iff :
      kind = .scratchpad →
        ((∃ victims,
            m.victims? kind layout.depth layout.alignment = some victims) ↔
          m.RoomWithout kind layout.depth layout.alignment
            (m.evictables.map Resident.tensor)) := by
    rintro rfl
    have hPos := Nat.lt_of_lt_of_le hSize hLimit
    constructor
    · rintro ⟨victims, hVictims⟩
      have hLeast := hSound.leastVictims name hUnwrapped hAbsent hSize
        hLimit hCrowded hVictims
      rcases hLeast.shortest with ⟨-, -, -, -, hRoom, -⟩
      refine hRoom.mono ?_
      intro u hU
      rcases hLeast.unpinned u hU with ⟨r, hMem, hTensor, hKind, hPins⟩
      exact List.mem_map.mpr
        ⟨r, mem_evictables.mpr ⟨hMem, hKind, hPins⟩, hTensor⟩
    · intro hRoom
      by_contra hNone
      refine hSound.victims?_eq_none hUnwrapped hPos hSize
        (fun hNil => hCrowded (roomWithout_nil_iff.mp hNil)) ?_ hRoom
      exact Option.eq_none_iff_forall_ne_some.mpr
        (fun victims hVictims => hNone ⟨victims, hVictims⟩)
  constructor
  case accumulator =>
    rintro rfl
    exact hAnswer
  case spill_iff =>
    intro hKind
    rw [← hRoom_iff hKind, hAnswer]
    cases m.victims? kind layout.depth layout.alignment with
    | none => simp
    | some victims => simp
  case refused_iff =>
    intro hKind
    rw [← hRoom_iff hKind, hAnswer]
    cases m.victims? kind layout.depth layout.alignment with
    | none => simp
    | some victims => simp
  case victims =>
    intro victims m' hRun
    rw [hAnswer] at hRun
    cases hVictims : m.victims? kind layout.depth layout.alignment with
    | none =>
        rw [hVictims] at hRun
        cases hRun
    | some chosen =>
        rw [hVictims] at hRun
        cases hRun
        exact hSound.leastVictims name hUnwrapped hAbsent hSize hLimit
          hCrowded hVictims
  case order_unique => exact fun order order' => hSound.leavingOrder_unique
  case furthest => exact fun r s => useRank_le_of_none

/-
  After any requests that release no pinned tensor, a tensor off
  the chip that is not larger than a memory and has no place
  there makes as few tensors leave as it can, and is placed
  after that. It is refused if that cannot help. The memories
  are small enough that no address wraps around.
-/
theorem evictsLeast_serveAll
    (localDepth accumulatorDepth : Nat)
    (rs : List Request)
    (t : TensorId)
    (name : String)
    (layout : VectorLayout)
    (kind : MemoryKind)
    (hLocal : localDepth < 2 ^ 63)
    (hAccumulator : accumulatorDepth < 2 ^ 63)
    (hAlignment : layout.alignment < Count.limit)
    (hPermits : (empty localDepth accumulatorDepth).PermitsAll rs)
    (hAbsent :
      ¬ ((empty localDepth accumulatorDepth).serveAll rs).IsResident t)
    (hSize : 1 ≤ layout.depth)
    (hLimit :
      layout.depth ≤ (empty localDepth accumulatorDepth).capacity kind)
    (hCrowded :
      ¬ HasPlace ((empty localDepth accumulatorDepth).capacity kind)
        (regions
          ((empty localDepth accumulatorDepth).serveAll rs).residents kind)
        layout.depth layout.alignment) :
    ((empty localDepth accumulatorDepth).serveAll rs).EvictsLeast
      t name layout kind := by
  have hRuns :=
    (stable_empty localDepth accumulatorDepth).runs_serveAll hPermits
  rcases hRuns.sound with ⟨pins, hSound⟩
  have hUnwrapped := unwrapped_empty hLocal hAccumulator hAlignment kind
  rw [← hRuns.capacity kind] at hUnwrapped hLimit hCrowded
  exact hSound.evictsLeast hUnwrapped hAbsent hSize hLimit hCrowded

/-
  Five tensors fill a scratchpad. One is pinned, one is read
  soon, and two are not read again.
-/
def filled : List Request :=
  [ .allocate ⟨0⟩ "a" (column 2 1) .scratchpad,
    .allocate ⟨1⟩ "b" (column 2 1) .scratchpad,
    .allocate ⟨2⟩ "c" (column 3 1) .scratchpad,
    .allocate ⟨3⟩ "d" (column 2 1) .scratchpad,
    .allocate ⟨4⟩ "e" (column 3 1) .scratchpad,
    .pin ⟨2⟩,
    .setNextUse ⟨0⟩ (some 9),
    .setNextUse ⟨1⟩ (some 9),
    .setNextUse ⟨2⟩ (some 9) ]

theorem evictsLeast_filled :
    (empty 12 4).PermitsAll filled ∧
      ¬ ((empty 12 4).serveAll filled).IsResident ⟨5⟩ ∧
      ¬ HasPlace 12
        (regions ((empty 12 4).serveAll filled).residents .scratchpad)
        4 2 ∧
      ((empty 12 4).serveAll filled).EvictsLeast
        ⟨5⟩ "f" (column 4 2) .scratchpad :=
  ⟨by decide, by decide, by decide,
    evictsLeast_serveAll 12 4 filled ⟨5⟩ "f" (column 4 2) .scratchpad
      (by decide) (by decide) (by decide) (by decide) (by decide)
      (by decide) (by decide) (by decide)⟩

/- The larger of the tensors that are not read again leaves first. -/
example :
    ((empty 12 4).serveAll filled).victims? .scratchpad 4 2 =
      some [⟨4⟩, ⟨3⟩] := by
  decide

end Memory

end Systolic
