import Systolic.Proofs.Schedule.Timeline

/-
  This file proves how long the operations of a schedule take. An
  operation takes time if all tensors that it works on take room,
  and a transfer does so only if a vector takes a transfer on the
  bus. The width of a vector is a product that is not checked, so
  it can exceed a count, and then transfers are estimated as too
  short, or as no time at all.

  Key definitions include:
    * `Operation.measured`
    * `Run.Advances`

  Key theorems include:
    * `Operation.cycles_pos`
    * `Commit.next_advances`
    * `Machine.cost_sound_of_fits`
-/

namespace Systolic

------------------------------------------------------------
-- Vectors on the Bus
------------------------------------------------------------

namespace Count

variable {a : Nat}

theorem isLeast_ceilDiv
    {b : Nat}
    (hB : 0 < b) :
    IsLeast {q | a ≤ q * b} (ceilDiv a b) := by
  unfold ceilDiv
  constructor
  · have hSplit := Nat.div_add_mod (a + (b - 1)) b
    have hRest := Nat.mod_lt (a + (b - 1)) hB
    rw [Nat.mul_comm] at hSplit
    change a ≤ (a + (b - 1)) / b * b
    omega
  · intro q hQ
    change a ≤ q * b at hQ
    apply Nat.le_of_lt_succ
    rw [Nat.div_lt_iff_lt_mul hB, Nat.succ_mul]
    omega

theorem mulWrap_eq_iff
    {a b : Nat} :
    mulWrap a b = a * b ↔ a * b < limit := by
  unfold mulWrap
  constructor
  · intro hSame
    rw [← hSame]
    exact Nat.mod_lt _ (by decide)
  · exact Nat.mod_eq_of_lt

theorem mulSat_pos
    {b : Nat}
    (hA : 0 < a)
    (hB : 0 < b) :
    0 < mulSat a b :=
  Nat.lt_min.mpr ⟨Nat.mul_pos hA hB, by decide⟩

theorem addSat_pos
    (hA : 0 < a)
    (b : Nat) :
    0 < addSat a b :=
  Nat.lt_min.mpr ⟨Nat.lt_of_lt_of_le hA (Nat.le_add_right a b), by decide⟩

end Count

theorem ScalarFormat.width_pos (f : ScalarFormat) : 0 < f.width := by
  cases f <;> decide

namespace Machine

variable {m : Machine}

/- A bus takes a vector in as few transfers as the kept bits need. -/
theorem isLeast_beatsPerVector
    (hBus : 0 < m.busWidth) :
    IsLeast {q | m.vectorBits ≤ q * m.busWidth} m.beatsPerVector :=
  Count.isLeast_ceilDiv hBus

/-
  These are the transfers of a whole vector exactly if its width
  is a count. The bits that are lost fill the bus at least once.
-/
theorem isLeast_beatsPerVector_iff
    (hBus : 0 < m.busWidth)
    (hCount : m.busWidth < Count.limit) :
    IsLeast {q | m.arraySize * m.format.width ≤ q * m.busWidth}
        m.beatsPerVector ↔
      m.arraySize * m.format.width < Count.limit := by
  have hKept := isLeast_beatsPerVector hBus
  constructor
  · intro hWhole
    by_contra hTooWide
    have hLost :
        m.vectorBits + Count.limit ≤ m.arraySize * m.format.width := by
      have hSplit :=
        Nat.div_add_mod (m.arraySize * m.format.width) Count.limit
      have hOnce :
          1 ≤ m.arraySize * m.format.width / Count.limit :=
        (Nat.one_le_div_iff (by decide)).mpr (Nat.le_of_not_lt hTooWide)
      have hMultiple := Nat.mul_le_mul_left Count.limit hOnce
      change m.arraySize * m.format.width % Count.limit + _ ≤ _
      omega
    have hEnough : m.arraySize * m.format.width ≤
        m.beatsPerVector * m.busWidth := hWhole.1
    cases hBeats : m.beatsPerVector with
    | zero =>
        rw [hBeats, Nat.zero_mul] at hEnough
        omega
    | succ beats =>
        -- One transfer less moves the bits that were kept.
        have hFewer : m.vectorBits ≤ beats * m.busWidth := by
          rw [hBeats, Nat.succ_mul] at hEnough
          omega
        have hLeast := hKept.2 hFewer
        rw [hBeats] at hLeast
        exact Nat.not_succ_le_self beats hLeast
  · intro hFits
    have hSame : m.vectorBits = m.arraySize * m.format.width :=
      Count.mulWrap_eq_iff.mpr hFits
    rw [← hSame]
    exact hKept

/- Transfers take no time if all bits of the width are lost. -/
theorem beatsPerVector_pos_iff
    (hBus : 0 < m.busWidth) :
    0 < m.beatsPerVector ↔
      ¬ Count.limit ∣ m.arraySize * m.format.width := by
  have hBits :
      Count.limit ∣ m.arraySize * m.format.width ↔ m.vectorBits = 0 :=
    Nat.dvd_iff_mod_eq_zero
  have hKept := isLeast_beatsPerVector hBus
  rw [hBits]
  constructor
  · intro hPos hZero
    have hLeast : m.beatsPerVector ≤ 0 := hKept.2 (by simp [hZero])
    omega
  · intro hSome
    apply Nat.pos_of_ne_zero
    intro hNone
    have hEnough : m.vectorBits ≤ m.beatsPerVector * m.busWidth := hKept.1
    rw [hNone, Nat.zero_mul] at hEnough
    omega

end Machine

------------------------------------------------------------
-- Tensors that Take Room
------------------------------------------------------------

/- A tensor takes room on the chip. -/
def TensorTable.TakesRoom
    (table : TensorTable)
    (t : TensorId) : Prop :=
  ∃ tensor, table.get? t = some tensor ∧ 0 < tensor.layout.depth

theorem TensorTable.SameLayouts.takesRoom
    {table table' : TensorTable}
    {t : TensorId}
    (hSame : table.SameLayouts table')
    (hRoom : table'.TakesRoom t) :
    table.TakesRoom t := by
  rcases hRoom with ⟨tensor, hGet, hPos⟩
  have hLayout := hSame t
  rw [hGet, Option.map_some, eq_comm, Option.map_eq_some_iff] at hLayout
  rcases hLayout with ⟨tensor', hGet', hEq⟩
  exact ⟨tensor', hGet', by rw [hEq]; exact hPos⟩

theorem TensorTable.yields_fetch
    (table : TensorTable)
    (t : TensorId) :
    Yields (table.fetch t) (fun _ => True)
      (fun tensor => table.get? t = some tensor) := by
  unfold fetch
  cases table.get? t <;> trivial

namespace Operation

/- The tensors whose layouts give the cycles of an operation. -/
def measured : Operation → List TensorId
| load t => [t]
| reload t => [t]
| store t => [t]
| spill t => [t]
| matMul input _ _ output => [input, output]
| accumulate input _ _ => [input]
| activate input _ _ => [input]

/- An operation on tensors that take room takes time. -/
theorem cycles_pos
    {m : Machine}
    {table : TensorTable}
    {op : Operation}
    {n : Nat}
    (hArray : 0 < m.arraySize)
    (hBeats : op.resource = .compute ∨ 0 < m.beatsPerVector)
    (hRoom : ∀ t ∈ op.measured, table.TakesRoom t)
    (hCycles : op.cycles m table = .ok n) :
    0 < n := by
  have hMove :
      ∀ t, 0 < m.beatsPerVector → table.TakesRoom t →
        moveCycles m table t = .ok n → 0 < n := by
    rintro t hBeats ⟨tensor, hGet, hPos⟩ hRun
    rw [moveCycles, TensorTable.fetch_eq_ok hGet] at hRun
    cases hRun
    exact Count.mulSat_pos hPos hBeats
  unfold cycles at hCycles
  split at hCycles
  case isTrue => cases hCycles
  case isFalse =>
    cases op with
    | load t | reload t | store t | spill t =>
        exact hMove t (hBeats.resolve_left (by simp [resource]))
          (hRoom t (by simp [measured])) hCycles
    | matMul input weights bias output =>
        rcases hRoom input (by simp [measured]) with ⟨x, hX, hInput⟩
        rcases hRoom output (by simp [measured]) with ⟨o, hO, hOutput⟩
        simp only [TensorTable.fetch_eq_ok hX,
          TensorTable.fetch_eq_ok hO] at hCycles
        cases hCycles
        have hInTiles : 0 < x.layout.tiles := Nat.pos_of_mul_pos_left hInput
        have hOutTiles : 0 < o.layout.tiles := Nat.pos_of_mul_pos_left hOutput
        exact Count.addSat_pos
          (Count.mulSat_pos (Count.mulSat_pos hOutTiles hInTiles)
            (Count.addSat_pos hArray _)) _
    | accumulate input output add =>
        rcases hRoom input (by simp [measured]) with ⟨x, hX, hInput⟩
        simp only [TensorTable.fetch_eq_ok hX] at hCycles
        cases hCycles
        exact hInput
    | activate input output activation =>
        rcases hRoom input (by simp [measured]) with ⟨x, hX, hInput⟩
        cases activation with
        | identity =>
            simp only [TensorTable.fetch_eq_ok hX] at hCycles
            cases hCycles
            exact hInput
        | relu =>
            simp only [TensorTable.fetch_eq_ok hX] at hCycles
            cases hCycles
            exact Count.mulSat_pos hInput (by decide)

end Operation

------------------------------------------------------------
-- Sizes of Encoded Moves
------------------------------------------------------------

/- Operands that are encoded fit their fields. -/
theorem WordLayout.raw_of_encodeOperands
    {fields : List Field}
    {operands : List (FieldName × Nat)}
    {operand : FieldName × Nat}
    {f : Field}
    {word : Nat}
    (hEncode : encodeOperands fields operands = .ok word)
    (hMem : operand ∈ operands)
    (hField : fields.find? (fun f => f.name = operand.1) = some f) :
    ∃ bits, f.raw operand.2 = .ok bits := by
  induction operands generalizing word with
  | nil => cases hMem
  | cons first rest ih =>
      unfold encodeOperands at hEncode
      split at hEncode
      case h_1 hNone =>
        rcases List.mem_cons.mp hMem with rfl | hRest
        · rw [hField] at hNone
          cases hNone
        · exact ih hEncode hRest
      case h_2 g hSome =>
        split at hEncode
        case h_1 => cases hEncode
        case h_2 bits hRaw =>
          split at hEncode
          case h_1 => cases hEncode
          case h_2 word' hRest =>
            rcases List.mem_cons.mp hMem with rfl | hLater
            · rw [hField] at hSome
              cases hSome
              exact ⟨bits, hRaw⟩
            · exact ih hRest hLater

/- A move of no vectors has no word. -/
theorem WordLayout.size_pos_of_encode
    {w : WordLayout}
    {direction : Direction}
    {near far size : Nat}
    {word : List UInt8}
    (hSound : w.Sound)
    (hEncode : w.encode (.dataMove direction near far size) = .ok word) :
    0 < size := by
  let i : Instruction := .dataMove direction near far size
  have hMem : (FieldName.size, size) ∈ i.operands := by
    simp [i, Instruction.operands]
  have hField := field?_operand hSound hMem
  unfold encode encodeWord at hEncode
  cases hOperands : encodeOperands (w.fields i.opcode) i.operands with
  | error overflow =>
      rw [hOperands] at hEncode
      cases hEncode
  | ok bits =>
      rcases raw_of_encodeOperands hOperands hMem hField with ⟨raw, hRaw⟩
      apply Nat.pos_of_ne_zero
      rintro rfl
      simp [Field.raw, slot] at hRaw

/- Instructions that are encoded in a row have words. -/
theorem WordLayout.encode_of_encodeFrom
    {w : WordLayout}
    {s : InstructionSeq}
    {rest k i : Nat}
    {is : List Instruction}
    {bytes : List UInt8}
    {e : Encoded}
    (hEncode : w.encodeFrom s rest k is bytes = .ok e)
    (hFrom : k ≤ i)
    (hTo : i < k + rest) :
    ∃ word, w.encode (s.get i) = .ok word := by
  induction rest generalizing k is bytes with
  | zero => omega
  | succ rest ih =>
      unfold encodeFrom at hEncode
      split at hEncode
      case h_1 => cases hEncode
      case h_2 word hWord =>
        rcases Nat.eq_or_lt_of_le hFrom with rfl | hLater
        · exact ⟨word, hWord⟩
        · exact ih hEncode hLater (by omega)

namespace Operation

/-
  The instructions of an operation on a tensor move all of its
  vectors, unless it is a product.
-/
theorem instructions_move
    (p : Placement)
    (op : Operation) :
    (∃ input weights bias output,
      op = .matMul input weights bias output) ∨
    ∃ t, op.measured = [t] ∧
      Yields (op.instructions p) (fun _ => True)
        (fun s => ∃ tensor, p.tensors.get? t = some tensor ∧
          ∃ k direction near far, k < s.count ∧
            s.get k =
              .dataMove direction near far tensor.layout.depth) := by
  have hFetch := p.tensors.yields_fetch
  have hAny :
      ∀ {α : Type} (result : Except CompileError α),
        Yields result (fun _ => True) (fun _ => True) :=
    fun _ => Yields.of_forall (fun _ _ => trivial)
  cases op with
  | matMul input weights bias output =>
      exact .inl ⟨input, weights, bias, output, rfl⟩
  | load t | reload t =>
      refine .inr ⟨t, rfl, (hFetch t).bind (fun tensor hGet => ?_)⟩
      refine (hAny _).bind (fun location _ => ?_)
      refine (hAny _).bind (fun address _ => ?_)
      exact ⟨tensor, hGet, 0, _, _, _, Nat.one_pos, rfl⟩
  | store t | spill t =>
      refine .inr ⟨t, rfl, (hFetch t).bind (fun tensor hGet => ?_)⟩
      refine (hAny _).bind (fun location _ => ?_)
      refine (hAny _).bind (fun address _ => ?_)
      exact ⟨tensor, hGet, 0, _, _, _, Nat.one_pos, rfl⟩
  | accumulate input output add =>
      refine .inr ⟨input, rfl, (hAny _).bind (fun x _ => ?_)⟩
      refine (hAny _).bind (fun out _ => ?_)
      refine (hFetch input).bind (fun tensor hGet => ?_)
      exact ⟨tensor, hGet, 0, _, _, _, Nat.one_pos, rfl⟩
  | activate input output activation =>
      refine .inr ⟨input, rfl, (hAny _).bind (fun acc _ => ?_)⟩
      refine (hFetch input).bind (fun tensor hGet => ?_)
      refine (hAny _).bind (fun out _ => ?_)
      cases activation with
      | identity => exact ⟨tensor, hGet, 0, _, _, _, Nat.one_pos, rfl⟩
      | relu =>
          refine ⟨tensor, hGet, tensor.layout.depth, .accumulatorToLocal,
            out, acc, ?_, ?_⟩
          · exact Nat.lt_succ_self _
          · simp [InstructionSeq.append, rectify, InstructionSeq.single]

/- What is encoded works on tensors that take room. -/
theorem takesRoom_of_encode
    {w : WordLayout}
    {p : Placement}
    {op : Operation}
    {e : Encoded}
    (hSound : w.Sound)
    (hEncode : op.encode w p = .ok e) :
    (∃ input weights bias output,
      op = .matMul input weights bias output) ∨
    ∀ t ∈ op.measured, p.tensors.TakesRoom t := by
  rcases encode_eq_ok hEncode with ⟨s, hRow, -, hWords⟩
  rcases instructions_move p op with hProduct | ⟨t, hMeasured, hMoves⟩
  · exact .inl hProduct
  · right
    rw [hRow] at hMoves
    rcases hMoves with
      ⟨tensor, hGet, k, direction, near, far, hInside, hMove⟩
    rcases WordLayout.encode_of_encodeFrom hWords (Nat.zero_le k)
        (by omega) with ⟨word, hWord⟩
    rw [hMove] at hWord
    rw [hMeasured]
    intro u hU
    rcases List.mem_singleton.mp hU with rfl
    exact ⟨tensor, hGet, WordLayout.size_pos_of_encode hSound hWord⟩

end Operation

------------------------------------------------------------
-- Results that Are Placed
------------------------------------------------------------

/-
  A run of a workbench in which all tensors that are moved take
  room.
-/
structure Run.Measured
    (bench : Workbench)
    (run : Run) : Prop where
  timed : run.Timed bench
  layout : run.bench.layout = bench.layout
  moved :
    ∀ c ∈ run.committed,
      (∃ input weights bias output,
        c.operation = .matMul input weights bias output) ∨
      ∀ t ∈ c.operation.measured, bench.tensors.TakesRoom t

theorem Run.stable_measured
    {bench : Workbench}
    (hSound : bench.layout.Sound) :
    Run.Stable (Run.Measured bench) := by
  have hStable := Run.stable_timed bench
  constructor
  case memory =>
    intro run memory hMeasured
    exact ⟨hStable.memory run memory hMeasured.timed, hMeasured.layout,
      hMeasured.moved⟩
  case retire =>
    intro run op i cycles hMeasured
    refine ⟨hStable.retire run op i cycles hMeasured.timed,
      hMeasured.layout, ?_⟩
    rw [Run.retire, Ledger.committed_retire]
    exact hMeasured.moved
  case reserve =>
    intro run t location bench' hReserve hMeasured
    refine ⟨hStable.reserve run t location bench' hReserve hMeasured.timed,
      ?_, hMeasured.moved⟩
    unfold Workbench.reserveSlot at hReserve
    split at hReserve
    case h_1 => cases hReserve
    case h_2 =>
      split at hReserve
      case h_1 => cases hReserve
      case h_2 =>
        cases hReserve
        exact hMeasured.layout
  case append =>
    intro run op origin encoded cycles hEncode hCycles hMeasured
    refine ⟨hStable.append run op origin encoded cycles hEncode hCycles
      hMeasured.timed, hMeasured.layout, ?_⟩
    refine List.forall_mem_cons.mpr ⟨?_, hMeasured.moved⟩
    rw [hMeasured.layout] at hEncode
    rcases Operation.takesRoom_of_encode hSound hEncode with
      hProduct | hRoom
    · exact .inl hProduct
    · exact .inr (fun t hMem =>
        hMeasured.timed.layouts.takesRoom (hRoom t hMem))

theorem Memory.allocate_takesRoom
    {m : Memory}
    {t : TensorId}
    {name : String}
    {layout : VectorLayout}
    {kind : MemoryKind} :
    Ensures (allocate t name layout kind) m (fun _ => True)
      (fun result _ => ∀ address, result = .placed address →
        0 < layout.depth) := by
  unfold Ensures
  rcases allocate_cases m t name layout kind with
    ⟨e, hRun⟩ | ⟨victims, hRun, -⟩ | ⟨address, l, m', hRun, -, hSize, -⟩
  · rw [hRun]
    trivial
  · rw [hRun]
    intro address hPlaced
    cases hPlaced
  · rw [hRun]
    intro _ _
    omega

namespace Commit

variable {bench : Workbench} {run : Run} {t : TensorId}
variable {op : Operation} {anchor : Nat}

/- Only a tensor that takes room is placed. -/
theorem placeWithin_takesRoom
    {rounds : Nat}
    (hTimed : run.Timed bench) :
    Ensures (placeWithin anchor t rounds) run (fun _ => True)
      (fun _ run' => run'.Timed bench ∧ bench.tensors.TakesRoom t) := by
  have hStable := Run.stable_timed bench
  induction rounds generalizing run with
  | zero =>
      unfold placeWithin Asking.placeWithin fetch
      simp only [monadLift_self, ensures_bind, ensures_ask, ensures_get,
        ensures_throw]
      exact Yields.of_forall (fun _ _ => trivial)
  | succ rounds ih =>
      unfold placeWithin Asking.placeWithin fetch
      simp only [monadLift_self, ensures_bind, ensures_ask]
      refine (run.bench.tensors.yields_fetch t).weaken ?_
      intro tensor hGet
      refine onMemory_ensures Memory.allocate_takesRoom
        (fun _ _ => trivial) ?_
      intro result m hRoom
      have hTimed₁ := hStable.memory run m hTimed
      cases result with
      | placed address =>
          exact ⟨hTimed₁,
            hTimed.layouts.takesRoom ⟨tensor, hGet, hRoom address rfl⟩⟩
      | spill kind victims =>
          refine (Keeps.forM (keeps_evict hStable anchor) victims _
            hTimed₁).bind ?_
          intro _ run₂ hTimed₂
          refine (keeps_setClock hStable run₂ hTimed₂).bind ?_
          exact fun _ run₃ hTimed₃ => ih hTimed₃

/- The result of an operation that is committed takes room. -/
theorem operation_takesRoom
    {origin : Option Nat}
    {kept : List TensorId}
    (hTimed : run.Timed bench) :
    Ensures (operation op origin anchor kept) run (fun _ => True)
      (fun _ _ => ∀ t ∈ op.writes, bench.tensors.TakesRoom t) := by
  have hStable := Run.stable_timed bench
  have hPlaced :
      ∀ run₁ : Run, run₁.Timed bench →
        Ensures (op.writes.toList.forM (placeResult anchor)) run₁
          (fun _ => True)
          (fun _ run₂ => run₂.Timed bench ∧
            ∀ t ∈ op.writes, bench.tensors.TakesRoom t) := by
    intro run₁ hTimed₁
    cases op.writes with
    | none => exact ⟨hTimed₁, by simp⟩
    | some t =>
        change Ensures (placeResult anchor t >>= fun _ => pure ()) run₁ _ _
        simp only [placeResult, ensures_bind, ensures_pure]
        refine (placeWithin_takesRoom hTimed₁).weaken ?_
        rintro _ run₂ ⟨hTimed₂, hRoom⟩
        refine ⟨hTimed₂, ?_⟩
        rintro u ⟨⟩
        exact hRoom
  unfold operation Asking.operation Asking.perform
  refine (keeps_setClock hStable run hTimed).bind ?_
  intro _ run₁ hTimed₁
  refine (Keeps.forM (fun _ => keeps_onMemory_any hStable _) _ run₁
    hTimed₁).bind ?_
  intro _ run₂ hTimed₂
  refine (hPlaced run₂ hTimed₂).bind ?_
  rintro _ run₃ ⟨hTimed₃, hRoom⟩
  refine (keeps_finish hStable (fun _ _ => trivial) op origin anchor _ run₃
    hTimed₃).weaken ?_
  exact fun _ _ _ => hRoom

end Commit

------------------------------------------------------------
-- Rounds
------------------------------------------------------------

/-
  A run that has committed a part of a program: what an operation
  writes that is not pending any more takes room, and all other
  operations move tensors.
-/
structure Run.Advances
    (bench : Workbench)
    (program : List Operation)
    (run : Run) : Prop where
  measured : run.Measured bench
  lists : run.Lists program
  written :
    ∀ op ∈ program, (∃ i, (i, op) ∈ run.pending) ∨
      ∀ t ∈ op.writes, bench.tensors.TakesRoom t
  committed :
    ∀ c ∈ run.committed, c.operation ∈ program ∨
      c.operation.isMove = true

namespace Run.Advances

variable {bench : Workbench} {program : List Operation} {run : Run}

theorem start
    (bench : Workbench)
    (program : List Operation)
    (backlog : UnitCycles) :
    (Run.start bench program backlog).Advances bench program := by
  constructor
  case measured =>
    exact ⟨⟨rfl, fun _ => rfl, trivial⟩, rfl, by simp [Run.start, Ledger.start]⟩
  case lists => exact .start bench program backlog
  case written =>
    intro op hMem
    rcases List.mem_iff_getElem?.mp hMem with ⟨i, hGet⟩
    refine .inl ⟨i, ?_⟩
    rw [Lists.start bench program backlog]
    exact ⟨hGet, by simp [Run.start, Ledger.start]⟩
  case committed => simp [Run.start, Ledger.start]

/- An operation is taken from the pending ones and committed. -/
theorem enter
    {i : Nat}
    {op : Operation}
    {run₁ run' : Run}
    (hAdvances : run.Advances bench program)
    (hMem : (i, op) ∈ run.pending)
    (hInjects : run.Injects run₁)
    (hEnters : run₁.Enters op (some i) run')
    (hMeasured : run'.Measured bench)
    (hRoom : ∀ t ∈ op.writes, bench.tensors.TakesRoom t) :
    run'.Advances bench program ∧
      run'.pending.length = run.pending.length - 1 := by
  have hPending :
      run'.pending = run.pending.eraseP (fun p => p.1 = i) := by
    rw [hEnters.pending, Run.pendingAfter, hInjects.pending]
  refine ⟨⟨hMeasured, (hAdvances.lists.injects hInjects).enter hEnters, ?_,
    ?_⟩, ?_⟩
  · intro op' hOp'
    rcases hAdvances.written op' hOp' with ⟨k, hWaits⟩ | hPlaced
    · by_cases hSame : k = i
      · subst hSame
        rw [hAdvances.lists.eq_of_mem hMem hWaits]
        exact .inr hRoom
      · left
        refine ⟨k, ?_⟩
        rw [hPending, List.mem_eraseP_of_neg (by simpa using hSame)]
        exact hWaits
    · exact .inr hPlaced
  · rcases hEnters.committed with ⟨c, rfl, -, hCommitted⟩
    rcases hInjects.added with ⟨ops, hOps, hAdded⟩
    intro d hD
    rw [hCommitted, hOps] at hD
    rcases List.mem_cons.mp hD with rfl | hD
    · exact .inl (List.mem_of_getElem?
        ((hAdvances.lists i _).mp hMem).1)
    · rcases List.mem_append.mp hD with hNew | hOld
      · exact .inr (hAdded d hNew).2
      · exact hAdvances.committed d hOld
  · rw [hPending, List.length_eraseP_of_mem hMem (by simp)]

/- Once nothing is pending, every operation has room for its tensors. -/
theorem takesRoom
    {c : CommittedOp}
    (hAdvances : run.Advances bench program)
    (hSingle : SingleAssignment program)
    (hNone : run.pending = [])
    (hMem : c ∈ run.committed) :
    ∀ t ∈ c.operation.measured, bench.tensors.TakesRoom t := by
  have hWritten : ∀ t ∈ Systolic.written program, bench.tensors.TakesRoom t := by
    intro t hT
    rcases List.mem_filterMap.mp hT with ⟨op, hOp, hWrites⟩
    rcases hAdvances.written op hOp with ⟨i, hWaits⟩ | hPlaced
    · rw [hNone] at hWaits
      cases hWaits
    · exact hPlaced t hWrites
  rcases hAdvances.measured.moved c hMem with
    ⟨input, weights, bias, output, hProduct⟩ | hRoom
  · have hListed : c.operation ∈ program := by
      refine (hAdvances.committed c hMem).resolve_right ?_
      rw [hProduct]
      exact Bool.false_ne_true
    rw [hProduct] at hListed ⊢
    intro t hT
    apply hWritten
    rcases List.mem_cons.mp hT with rfl | hOutput
    · refine hSingle.mem_written hListed ?_
      simp [Operation.reads, mem_distinct]
    · rcases List.mem_singleton.mp hOutput with rfl
      exact List.mem_filterMap.mpr ⟨_, hListed, rfl⟩
  · exact hRoom

end Run.Advances

/- One round takes one operation from the pending ones. -/
theorem Commit.next_advances
    {bench : Workbench}
    {program : List Operation}
    {run : Run}
    (hSound : bench.layout.Sound)
    (window : Nat)
    (hAdvances : run.Advances bench program) :
    Ensures (next window) run (fun _ => True)
      (fun _ run' => run'.Advances bench program ∧
        run'.pending.length = run.pending.length - 1) := by
  have hStable := Run.stable_measured hSound
  unfold next Asking.next
  simp only [monadLift_self, ensures_bind, ensures_get]
  split
  case h_1 hNone =>
    refine ⟨hAdvances, ?_⟩
    rw [hNone]
    rfl
  case h_2 oldest rest hPending =>
    cases hSelect : run.select window oldest with
    | error e => trivial
    | ok chosen =>
        rcases chosen with ⟨i, op⟩
        have hMem := (Run.select_cases hSelect).1
        have hBack :
            Ensures (op.reads.forM (bringBack i op.reads)) run
              (fun _ => True)
              (fun _ run₁ => run.Injects run₁ ∧ run₁.Measured bench) := by
          refine Ensures.forM
            (fun _ run₁ => run.Injects run₁ ∧ run₁.Measured bench)
            ⟨.refl run, hAdvances.measured⟩ ?_
          rintro t _ run₁ ⟨hInjects, hMeasured⟩
          exact ((bringBack_injects hInjects).and
            (keeps_bringBack hStable i op.reads t run₁ hMeasured)).mono
              (fun _ _ hBoth => hBoth) (fun _ _ => trivial)
        refine hBack.bind ?_
        rintro _ run₁ ⟨hInjects, hMeasured⟩
        refine (((operation_injects hInjects).and
          (operation_takesRoom hMeasured.timed)).and
            (keeps_operation hStable op (some i) i [] run₁
              hMeasured)).mono ?_ (fun _ _ => trivial)
        rintro _ run' ⟨⟨⟨run₂, hInjects₂, hEnters⟩, hRoom⟩, hMeasured'⟩
        exact hAdvances.enter hMem hInjects₂ hEnters hMeasured' hRoom

/- A whole schedule works on tensors that take room only. -/
theorem Workbench.takesRoom_of_ok
    {lookahead : Nat}
    {program : List Operation}
    {bench bench' : Workbench}
    {s : Schedule}
    (hSound : bench.layout.Sound)
    (hSchedule : schedule program lookahead bench = .ok s bench') :
    ∃ run : Run, run.Timed bench ∧ s = run.schedule ∧
      ∀ c ∈ run.committed, ∀ t ∈ c.operation.measured,
        bench.tensors.TakesRoom t := by
  have hAll :
      Ensures (schedule program lookahead) bench (fun _ => True)
        (fun s _ => ∃ run : Run, run.Timed bench ∧ s = run.schedule ∧
          ∀ c ∈ run.committed, ∀ t ∈ c.operation.measured,
            bench.tensors.TakesRoom t) := by
    rw [ensures_schedule]
    apply Yields.of_forall
    intro backlog hCheck
    have hProgram :
        Yields
          (checkProgram bench.machine bench.tensors 0 [] UnitCycles.zero program)
          (bench.taskOf program lookahead).Tolerates
          (fun _ => SingleAssignment ([] ++ program)) := by
      refine checkProgram_yields (n := 0) False.elim False.elim ?_ ?_
      · intro i op hGet
        simp at hGet
      · simp [written]
    rw [hCheck] at hProgram
    have hSingle : SingleAssignment program := hProgram
    refine (Ensures.forM
      (fun rest run => run.Advances bench program ∧
        run.pending.length ≤ rest.length)
      ⟨.start bench program backlog,
        by simp [Run.start, Ledger.start, located]⟩ ?_).bind ?_
    · rintro _ rest run ⟨hAdvances, hLength⟩
      refine (Commit.next_advances hSound _ hAdvances).weaken ?_
      rintro _ run' ⟨hAdvances', hLength'⟩
      refine ⟨hAdvances', ?_⟩
      rw [List.length_cons] at hLength
      omega
    · rintro _ run ⟨hAdvances, hLength⟩
      have hNone : run.pending = [] :=
        List.length_eq_zero_iff.mp (Nat.le_zero.mp hLength)
      change Ensures Commit.audit run _ _
      simp only [Commit.audit, ensures_bind, ensures_get]
      split
      case h_1 =>
        exact ⟨run, hAdvances.measured.timed, rfl,
          fun c hMem => hAdvances.takesRoom hSingle hNone hMem⟩
      case h_2 => trivial
  exact hAll.of_ok hSchedule

------------------------------------------------------------
-- Estimates
------------------------------------------------------------

/- The times of an operation, with those of all before it. -/
theorem Timeline.exists_of_mem
    {m : Machine}
    {table : TensorTable}
    {ops : List CommittedOp}
    {c : CommittedOp}
    (hLine : Timeline m table ops)
    (hMem : c ∈ ops) :
    ∃ older, Timeline m table (c :: older) := by
  induction ops with
  | nil => cases hMem
  | cons newest older ih =>
      rcases List.mem_cons.mp hMem with rfl | hOlder
      · exact ⟨older, hLine⟩
      · exact ih hLine.2 hOlder

/- A transfer takes no time if a vector takes no transfer. -/
theorem Operation.cycles_eq_zero
    {m : Machine}
    {table : TensorTable}
    {op : Operation}
    {n : Nat}
    (hBeats : m.beatsPerVector = 0)
    (hUnit : op.resource ≠ .compute)
    (hCycles : op.cycles m table = .ok n) :
    n = 0 := by
  have hMove : ∀ t, moveCycles m table t = .ok n → n = 0 := by
    intro t hRun
    unfold moveCycles at hRun
    cases hFetch : table.fetch t with
    | error e =>
        rw [hFetch] at hRun
        cases hRun
    | ok tensor =>
        rw [hFetch, hBeats] at hRun
        cases hRun
        rfl
  unfold cycles at hCycles
  split at hCycles
  case isTrue => cases hCycles
  case isFalse =>
    cases op with
    | load t | reload t | store t | spill t => exact hMove t hCycles
    | matMul | accumulate | activate => exact absurd rfl hUnit

/-
  On an accepted machine, the width of a vector and the transfers
  that it takes are right exactly if the width is a count, and
  then it takes one at least. Every operation of a schedule takes
  time as long as a vector takes a transfer. If the width is a
  multiple of the limit of counts, it takes none, and then every
  transfer ends when it starts.
-/
theorem Machine.cost_sound_of_fits
    {m : Machine}
    {w : WordLayout}
    (hCheck : m.check = .ok w)
    (hCount : m.busWidth < Count.limit) :
    (m.vectorBits = m.arraySize * m.format.width ↔
      m.arraySize * m.format.width < Count.limit) ∧
    (IsLeast {q | m.arraySize * m.format.width ≤ q * m.busWidth}
        m.beatsPerVector ↔
      m.arraySize * m.format.width < Count.limit) ∧
    (m.arraySize * m.format.width < Count.limit →
      1 ≤ m.beatsPerVector) ∧
    (0 < m.beatsPerVector ↔
      ¬ Count.limit ∣ m.arraySize * m.format.width) ∧
    ∀ program lookahead bench s bench',
      bench.machine = m → bench.layout = w →
      Workbench.schedule program lookahead bench = .ok s bench' →
      ∀ c ∈ s.ops,
        (c.operation.resource = .compute ∨ 0 < m.beatsPerVector →
          c.startCycle < 2 ^ 64 - 1 → c.startCycle < c.endCycle) ∧
        (c.operation.resource ≠ .compute → m.beatsPerVector = 0 →
          c.endCycle = c.startCycle) := by
  have hAccepted := accepted_of_check hCheck
  have hBeats := beatsPerVector_pos_iff hAccepted.busWidth_pos
  refine ⟨Count.mulWrap_eq_iff,
    isLeast_beatsPerVector_iff hAccepted.busWidth_pos hCount, ?_, hBeats, ?_⟩
  · intro hFits
    have hWide :=
      Nat.mul_pos hAccepted.arraySize_pos m.format.width_pos
    exact hBeats.mpr (Nat.not_dvd_of_pos_of_lt hWide hFits)
  rintro program lookahead bench s bench' rfl rfl hSchedule c hMem
  have hSound := WordLayout.sound_of_ofMachine hAccepted.layout
  rcases Workbench.takesRoom_of_ok hSound hSchedule with
    ⟨run, hTimed, rfl, hRoom⟩
  have hCommitted : c ∈ run.committed := List.mem_reverse.mp hMem
  rcases hTimed.line.exists_of_mem hCommitted with ⟨older, hLine⟩
  rcases hLine.1.stop with ⟨cycles, hCycles, hStop⟩
  constructor
  · intro hBeats hEarly
    have hPos := Operation.cycles_pos hAccepted.arraySize_pos hBeats
      (hRoom c hCommitted) hCycles
    rw [hStop]
    exact Nat.lt_min.mpr ⟨Nat.lt_add_of_pos_right hPos, hEarly⟩
  · intro hUnit hBeats
    have hZero := Operation.cycles_eq_zero hBeats hUnit hCycles
    apply Nat.le_antisymm
    · rw [hStop, hZero]
      exact Nat.min_le_left _ _
    · exact hLine.startCycle_le_endCycle

/-
  On a small machine, a schedule that stores two tensors and
  brings them back takes time for each of its operations.
-/
theorem Machine.cost_sound_of_fits_rectifiedSum :
    ∃ (m : Machine) (w : WordLayout) (x : Scheduled),
      m.check = .ok w ∧ m.busWidth < Count.limit ∧
      m.arraySize * m.format.width < Count.limit ∧
      x.before.machine = m ∧ x.before.layout = w ∧
      Workbench.schedule x.program 8 x.before = .ok x.schedule x.after ∧
      x.schedule.ops.length = 14 ∧
      ∀ c ∈ x.schedule.ops,
        c.startCycle < 2 ^ 64 - 1 → c.startCycle < c.endCycle := by
  have hFacts :
      (scheduleNetwork? rectifiedSum ["sum"] oneVector 8).map
        (fun x =>
          (x.before.machine, some x.before.layout, x.schedule.ops.length)) =
      some (oneVector, oneVector.check.toOption, 14) := by
    decide +kernel
  rcases Option.map_eq_some_iff.mp hFacts with ⟨x, hScheduled, hSeen⟩
  simp only [Prod.mk.injEq] at hSeen
  rcases hSeen with ⟨hMachine, hLayout, hLength⟩
  cases hCheck : oneVector.check with
  | error e =>
      rw [hCheck] at hLayout
      cases hLayout
  | ok w =>
      rw [hCheck] at hLayout
      have hCount : oneVector.busWidth < Count.limit := by decide
      have hFits :
          oneVector.arraySize * oneVector.format.width < Count.limit := by
        decide
      have hSchedule := (scheduleNetwork?_eq_some hScheduled).2
      rcases cost_sound_of_fits hCheck hCount with
        ⟨-, -, hBeats, -, hSchedules⟩
      have hLayout : x.before.layout = w := Option.some.inj hLayout
      refine ⟨oneVector, w, x, hCheck, hCount, hFits, hMachine, hLayout,
        hSchedule, hLength, ?_⟩
      intro c hMem
      exact (hSchedules _ _ _ _ _ hMachine hLayout hSchedule c hMem).1
        (.inr (hBeats hFits))

/-
  But a machine can be accepted whose vectors have 2 ^ 64 bits.
  No bit of this width is kept, and all transfers are estimated
  to take no time.
-/
theorem Machine.free_transfers_rectifiedSum :
    ∃ (m : Machine) (w : WordLayout) (x : Scheduled) (c : CommittedOp),
      m.check = .ok w ∧ m.arraySize * m.format.width = Count.limit ∧
      m.vectorBits = 0 ∧ m.beatsPerVector = 0 ∧
      x.before.machine = m ∧ x.before.layout = w ∧
      Workbench.schedule x.program 8 x.before = .ok x.schedule x.after ∧
      c ∈ x.schedule.ops ∧ c.operation = .load ⟨0⟩ ∧
      c.startCycle = 0 ∧ c.endCycle = 0 := by
  let m : Machine :=
    { standard with
      arraySize := 1152921504606846976, localDepth := 1
      accumulatorDepth := 1 }
  have hFacts :
      (scheduleNetwork? rectifiedSum ["sum"] m 8).map
        (fun x =>
          (x.before.machine, some x.before.layout,
            x.schedule.ops[0]?.map
              (fun c => (c.operation, c.startCycle, c.endCycle)))) =
      some (m, m.check.toOption, some (.load ⟨0⟩, 0, 0)) := by
    decide +kernel
  rcases Option.map_eq_some_iff.mp hFacts with ⟨x, hScheduled, hSeen⟩
  simp only [Prod.mk.injEq] at hSeen
  rcases hSeen with ⟨hMachine, hLayout, hFirst⟩
  rcases Option.map_eq_some_iff.mp hFirst with ⟨c, hGet, hTimes⟩
  simp only [Prod.mk.injEq] at hTimes
  rcases hTimes with ⟨hOp, hStart, hEnd⟩
  cases hCheck : m.check with
  | error e =>
      rw [hCheck] at hLayout
      cases hLayout
  | ok w =>
      rw [hCheck] at hLayout
      exact ⟨m, w, x, c, hCheck, by decide, by decide, by decide, hMachine,
        Option.some.inj hLayout, (scheduleNetwork?_eq_some hScheduled).2,
        List.mem_of_getElem? hGet, hOp, hStart, hEnd⟩

end Systolic
