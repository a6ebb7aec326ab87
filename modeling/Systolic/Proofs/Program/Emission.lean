import Systolic.Proofs.Compile.Admissible
import Systolic.Proofs.Effect.Ensures
import Systolic.Proofs.Instruction.Reach
import Systolic.Proofs.Program.WellFormed

/-
  This file proves that an operation whose tensors are in place
  is turned into instructions that stay inside the regions of
  these tensors, and so into words. The only failure is a place
  in DRAM that leaves its bank.

  Key definitions include:
    * `Placement.Bound`
    * `Placement.Lends`
    * `Instruction.Confined`
    * `Operation.HoldsProduct`

  Key theorems include:
    * `Operation.instructions_yields`
    * `Operation.encode_yields`
    * `Operation.encode_words`
-/

namespace Systolic

------------------------------------------------------------
-- Tensors in Place
------------------------------------------------------------

/- The memory of a kind, among all memories of a machine. -/
def MemoryKind.store : MemoryKind → Store
| scratchpad => .scratchpad
| accumulator => .accumulator

/- The memory of a DRAM bank. -/
def DramBank.store : DramBank → Store
| .dram0 => .dram0
| .dram1 => .dram1

/- The vectors of a binding. -/
def Binding.span (b : Binding) : Span :=
  { store := b.kind.store, start := b.address, length := b.size }

/- The vectors of a tensor at a location in DRAM. -/
def Tensor.span
    (tensor : Tensor)
    (l : DramLocation) : Span :=
  { store := l.bank.store, start := l.address
    length := tensor.layout.depth }

theorem Machine.depth_store_bank
    (m : Machine)
    (bank : DramBank) :
    m.depth bank.store = m.bankDepth bank := by
  cases bank <;> rfl

/- The memories on the chip are smaller than a count can be. -/
theorem Machine.Accepted.depth_le_limit
    {m : Machine}
    {w : WordLayout}
    (hAccepted : m.Accepted w)
    (kind : MemoryKind) :
    m.depth kind.store ≤ Count.limit := by
  have hWide := WordLayout.wide_of_ofMachine hAccepted.layout
  have hSize := hWide.size
  have hLimit := hWide.size_le
  cases kind
  · change m.localDepth ≤ _
    omega
  · change m.accumulatorDepth ≤ _
    omega

namespace Placement

variable {tensor : Tensor} {b : Binding} {kind : MemoryKind}

/-
  A tensor has a binding of its own size in its own memory, and
  the binding lies inside that memory.
-/
structure Bound
    (p : Placement)
    (t : TensorId)
    (tensor : Tensor)
    (b : Binding) : Prop where
  binding : p.memory.binding? t = some b
  entry : p.tensors.get? t = some tensor
  kind_eq : b.kind = tensor.kind
  size_eq : b.size = tensor.layout.depth
  size_pos : 0 < b.size
  inside : b.address + b.size ≤ p.machine.depth b.kind.store

variable {p : Placement} {op : Operation} {t : TensorId}

/- The tensors of a list are in place. -/
def AllBound
    (p : Placement)
    (ts : List TensorId) : Prop :=
  ∀ t ∈ ts, ∃ tensor b, p.Bound t tensor b

theorem AllBound.of_holds
    {ts : List TensorId}
    (hAll : p.AllBound ts)
    (hMem : t ∈ ts)
    (hHolds : p.tensors.Holds t kind tensor) :
    ∃ b, p.Bound t tensor b ∧ b.kind = kind := by
  rcases hAll t hMem with ⟨other, b, hBound⟩
  cases hHolds.1.symm.trans hBound.entry
  exact ⟨b, hBound, hBound.kind_eq.trans hHolds.2⟩

/- A tensor that is in place has an address. -/
theorem Bound.onChip_eq
    (hBound : p.Bound t tensor b)
    (hKind : b.kind = kind) :
    p.onChip op kind t = .ok b.address := by
  rw [onChip, hBound.binding]
  exact if_pos hKind

theorem Bound.fetch_eq
    (hBound : p.Bound t tensor b) :
    p.tensors.fetch t = .ok tensor :=
  TensorTable.fetch_eq_ok hBound.entry

/- A location lies inside its bank, or it is refused. -/
theorem inDram_yields
    {l : DramLocation}
    (size : Nat) :
    Yields (p.inDram op (some l) size) (·.Admissible p.machine)
      (fun k => k = l ∧
        l.address + size ≤ p.machine.bankDepth l.bank) := by
  unfold inDram
  simp only [bankDepth_eq]
  split
  case isTrue hInside => exact ⟨rfl, hInside⟩
  case isFalse hBeyond =>
    exact .beyondBank _ l size (Nat.lt_of_not_le hBeyond)

/-
  The regions that an operation may touch: those of the tensors
  that it names, and the places in DRAM, inside their bank, of
  the tensor that it moves.
-/
inductive Lends
    (p : Placement)
    (op : Operation) : Span → Prop
| onChip {t : TensorId} {b : Binding}
    (hMem : t ∈ op.mentions)
    (hBinding : p.memory.binding? t = some b) :
    Lends p op b.span
| inDram {slot : DramSlot} {tensor : Tensor} {l : DramLocation}
    (hMoves : op.resource ≠ .compute)
    (hEntry : p.tensors.get? op.subject = some tensor)
    (hSlot : tensor.slot? slot = some l)
    (hInside :
      l.address + tensor.layout.depth ≤ p.machine.bankDepth l.bank) :
    Lends p op (tensor.span l)

/- A tensor in place lends all of its vectors. -/
theorem Bound.lends
    (op : Operation)
    (hBound : p.Bound t tensor b)
    (hKind : b.kind = kind)
    (hMem : t ∈ op.mentions) :
    p.Lends op
      { store := kind.store, start := b.address
        length := tensor.layout.depth } := by
  have hLends := Lends.onChip hMem hBound.binding
  rw [Binding.span, hKind, hBound.size_eq] at hLends
  exact hLends

theorem Bound.depth_pos
    (hBound : p.Bound t tensor b) :
    0 < tensor.layout.depth := by
  rw [← hBound.size_eq]
  exact hBound.size_pos

end Placement

------------------------------------------------------------
-- Confined Instructions
------------------------------------------------------------

/-
  What an instruction names has vectors and lies inside one of
  some regions.
-/
def Instruction.Confined
    (lends : Span → Prop)
    (i : Instruction) : Prop :=
  ∀ s ∈ i.spans, 0 < s.length ∧ ∃ r, lends r ∧ s.Inside r

/- Every instruction of a row is confined to some regions. -/
def InstructionSeq.Confined
    (lends : Span → Prop)
    (s : InstructionSeq) : Prop :=
  ∀ k < s.count, (s.get k).Confined lends

theorem Instruction.Confined.mono
    {lends lends' : Span → Prop}
    {i : Instruction}
    (hConfined : i.Confined lends)
    (hLends : ∀ r, lends r → lends' r) :
    i.Confined lends' := by
  intro s hMem
  rcases hConfined s hMem with ⟨hPos, r, hR, hInside⟩
  exact ⟨hPos, r, hLends r hR, hInside⟩

/- An instruction stays inside the memories if the regions do. -/
theorem Instruction.Confined.within
    {m : Machine}
    {lends : Span → Prop}
    {i : Instruction}
    (hConfined : i.Confined lends)
    (hLends :
      ∀ r, lends r →
        r.start + r.length ≤ m.depth r.store ∧
          r.start + r.length ≤ Count.limit) :
    i.Within m := by
  intro s hMem
  rcases hConfined s hMem with ⟨hPos, r, hR, hStore, hFrom, hTo⟩
  rcases hLends r hR with ⟨hInside, hCount⟩
  unfold Span.Within
  rw [hStore]
  omega

/- A place of a tensor in DRAM ends at a count. -/
theorem slot_counted
    {table : TensorTable}
    {dram : Dram}
    {t : TensorId}
    {tensor : Tensor}
    {l : DramLocation}
    (slot : DramSlot)
    (hLaid : table.Laid dram)
    (hEntry : table.get? t = some tensor)
    (hSlot : tensor.slot? slot = some l) :
    l.address + tensor.layout.depth < Count.limit :=
  Nat.lt_of_le_of_lt
    (hLaid.below (TensorTable.extent?_eq_some hEntry hSlot))
    (hLaid.bounded l.bank)

/- The region of a tensor in place lies inside its memory. -/
theorem Placement.AllBound.inside
    {p : Placement}
    {w : WordLayout}
    {ts : List TensorId}
    {t : TensorId}
    {b : Binding}
    (hAccepted : p.machine.Accepted w)
    (hBound : p.AllBound ts)
    (hMem : t ∈ ts)
    (hBinding : p.memory.binding? t = some b) :
    b.address + b.size ≤ p.machine.depth b.kind.store ∧
      b.address + b.size ≤ Count.limit := by
  rcases hBound t hMem with ⟨tensor, c, hC⟩
  cases hBinding.symm.trans hC.binding
  exact ⟨hC.inside,
    Nat.le_trans hC.inside (hAccepted.depth_le_limit b.kind)⟩

/- The regions of an operation whose tensors are in place. -/
theorem Placement.Lends.inside
    {p : Placement}
    {op : Operation}
    {w : WordLayout}
    {dram : Dram}
    {r : Span}
    (hAccepted : p.machine.Accepted w)
    (hLaid : p.tensors.Laid dram)
    (hBound : p.AllBound op.mentions)
    (hLends : p.Lends op r) :
    r.start + r.length ≤ p.machine.depth r.store ∧
      r.start + r.length ≤ Count.limit := by
  cases hLends with
  | onChip hMem hBinding => exact hBound.inside hAccepted hMem hBinding
  | @inDram slot tensor l _ hEntry hSlot hInside =>
      refine ⟨?_, Nat.le_of_lt (slot_counted slot hLaid hEntry hSlot)⟩
      change _ ≤ p.machine.depth l.bank.store
      rw [p.machine.depth_store_bank]
      exact hInside

------------------------------------------------------------
-- Moves
------------------------------------------------------------

namespace Operation

variable {p : Placement} {op : Operation} {t : TensorId}
variable {w : WordLayout} {s : InstructionSeq} {e : Encoded}
variable {rest k : Nat} {is : List Instruction} {bytes : List UInt8}

theorem far_directionFrom
    (bank : DramBank) :
    (directionFrom bank).far = bank.store := by
  cases bank <;> rfl

theorem far_directionTo
    (bank : DramBank) :
    (directionTo bank).far = bank.store := by
  cases bank <;> rfl

section Moves

variable {tensor : Tensor} {b : Binding} {l : DramLocation}

/- A move between a tensor in place and a location inside its bank. -/
theorem move_confined
    {direction : Direction}
    {slot : DramSlot}
    (hMoves : op.resource ≠ .compute)
    (hSubject : op.subject = t)
    (hMem : t ∈ op.mentions)
    (hBound : p.Bound t tensor b)
    (hKind : b.kind = .scratchpad)
    (hSlot : tensor.slot? slot = some l)
    (hInside :
      l.address + tensor.layout.depth ≤ p.machine.bankDepth l.bank)
    (hFar : direction.far = l.bank.store) :
    (InstructionSeq.single
      (.dataMove direction b.address l.address
        tensor.layout.depth)).Confined (p.Lends op) := by
  intro k _ s hS
  have hPos := hBound.depth_pos
  have hEntry : p.tensors.get? op.subject = some tensor := by
    rw [hSubject]
    exact hBound.entry
  rcases List.mem_pair.mp hS with rfl | rfl
  · exact ⟨hPos, _, hBound.lends op hKind hMem, .refl _⟩
  · refine ⟨hPos, _, .inDram hMoves hEntry hSlot hInside, ?_⟩
    rw [hFar]
    exact .refl _

/- A tensor in place is moved from or to a location. -/
theorem move_yields
    {direction : DramBank → Direction}
    {location? : Tensor → Option DramLocation}
    (slot : DramSlot)
    (hFar : ∀ bank, (direction bank).far = bank.store)
    (hMoves : op.resource ≠ .compute)
    (hSubject : op.subject = t)
    (hMem : t ∈ op.mentions)
    (hBound : p.Bound t tensor b)
    (hKind : b.kind = .scratchpad)
    (hLocation : location? tensor = some l)
    (hSlot : tensor.slot? slot = some l) :
    Yields (move p op t direction location?) (·.Admissible p.machine)
      (·.Confined (p.Lends op)) := by
  unfold move
  rw [hBound.fetch_eq, hBound.onChip_eq hKind]
  change Yields (p.inDram op (location? tensor) tensor.layout.depth >>= _) _ _
  rw [hLocation]
  refine (Placement.inDram_yields tensor.layout.depth).bind ?_
  rintro k ⟨rfl, hInside⟩
  exact move_confined hMoves hSubject hMem hBound hKind hSlot hInside
    (hFar k.bank)

end Moves

------------------------------------------------------------
-- Products
------------------------------------------------------------

/- A tile of `r` vectors among `n` of them. -/
theorem tile_le
    {j n : Nat}
    (r : Nat)
    (hTile : j < n) :
    j * r + r ≤ r * n := by
  calc j * r + r
    _ = (j + 1) * r := (Nat.succ_mul j r).symm
    _ ≤ n * r := Nat.mul_le_mul_right r hTile
    _ = r * n := Nat.mul_comm n r

/- The regions that a product is lent hold all of its tiles. -/
structure Tiling.Fits
    (s : Tiling)
    (a : ProductPlace)
    (lends : Span → Prop) : Prop where
  rows_pos : 0 < s.rows
  size_pos : 0 < s.arraySize
  stride : s.weightStride = s.inTiles * s.arraySize
  input :
    lends
      { store := .scratchpad, start := a.input
        length := s.rows * s.inTiles }
  weights :
    lends
      { store := .scratchpad, start := a.weights
        length := s.weightStride * s.outTiles }
  bias :
    ∀ b ∈ a.bias,
      lends { store := .scratchpad, start := b, length := s.outTiles }
  output :
    lends
      { store := .accumulator, start := a.output
        length := s.rows * s.outTiles }

section Products

variable {s : Tiling} {a : ProductPlace} {lends : Span → Prop} {j : Nat}

theorem seedRow_confined
    {b r : Nat}
    (hFits : s.Fits a lends)
    (hBias : a.bias = some b)
    (hTile : j < s.outTiles)
    (hRow : r < s.rows) :
    (seedRow s a b j r).Confined lends := by
  have hRows := tile_le s.rows hTile
  intro q hQ
  rcases List.mem_pair.mp hQ with rfl | rfl
  · refine ⟨Nat.one_pos, _, hFits.bias b hBias, rfl, ?_, ?_⟩
    · exact Nat.le_add_right b j
    · change b + j + 1 ≤ b + s.outTiles
      omega
  · refine ⟨Nat.one_pos, _, hFits.output, rfl, ?_, ?_⟩
    · change a.output ≤ a.output + j * s.rows + r
      omega
    · change a.output + j * s.rows + r + 1 ≤ a.output + s.rows * s.outTiles
      omega

theorem blockHalf_confined
    {half : Nat}
    (hFits : s.Fits a lends)
    (hTile : j < s.outTiles)
    (hHalf : half < 2 * s.inTiles) :
    (blockHalf s a j half).Confined lends := by
  have hBlock : half / 2 < s.inTiles := by omega
  unfold blockHalf
  simp only
  intro q hQ
  split at hQ
  case isTrue =>
    -- The block lies in the column of weights of the output tile.
    have hColumn := tile_le s.weightStride hTile
    have hRows := tile_le s.arraySize hBlock
    have hWhole : s.arraySize * s.inTiles = s.weightStride := by
      rw [hFits.stride, Nat.mul_comm]
    rcases List.mem_singleton.mp hQ with rfl
    refine ⟨hFits.size_pos, _, hFits.weights, rfl, ?_, ?_⟩ <;>
      dsimp only
    · omega
    · omega
  case isFalse =>
    have hInTile := tile_le s.rows hBlock
    have hOutTile := tile_le s.rows hTile
    rcases List.mem_pair.mp hQ with rfl | rfl
    · refine ⟨hFits.rows_pos, _, hFits.input, rfl, ?_, ?_⟩ <;>
        dsimp only
      · omega
      · omega
    · refine ⟨hFits.rows_pos, _, hFits.output, rfl, ?_, ?_⟩ <;>
        dsimp only
      · omega
      · omega

theorem tileInstruction_confined
    {place : Nat}
    (hFits : s.Fits a lends)
    (hTile : j < s.outTiles)
    (hPlace : place < tileLength s a) :
    (tileInstruction s a j place).Confined lends := by
  unfold tileLength at hPlace
  unfold tileInstruction
  cases hBias : a.bias with
  | none =>
      rw [hBias] at hPlace
      exact blockHalf_confined hFits hTile (by simpa using hPlace)
  | some b =>
      rw [hBias] at hPlace
      simp only [Option.isSome_some, if_true] at hPlace ⊢
      split
      case isTrue hRow => exact seedRow_confined hFits hBias hTile hRow
      case isFalse => exact blockHalf_confined hFits hTile (by omega)

/- Every instruction of a product stays inside its regions. -/
theorem product_confined
    (hFits : s.Fits a lends) :
    (product s a).Confined lends := by
  intro k hK
  change k < s.outTiles * tileLength s a at hK
  have hLength : 0 < tileLength s a := by
    rcases Nat.eq_zero_or_pos (tileLength s a) with hZero | hPos
    · rw [hZero] at hK
      omega
    · exact hPos
  have hTile : k / tileLength s a < s.outTiles :=
    Nat.div_lt_of_lt_mul (by rwa [Nat.mul_comm] at hK)
  exact tileInstruction_confined hFits hTile (Nat.mod_lt k hLength)

end Products

------------------------------------------------------------
-- Operations
------------------------------------------------------------

section Operations

variable {input output : TensorId}

/-
  The tensors of a product are in place: its input `a`, weights
  `b` and output `c`, with their bindings, and its bias, if there
  is one, with the binding `v`. Their layouts match.
-/
structure HoldsProduct
    (p : Placement)
    (input weights : TensorId)
    (bias : Option TensorId)
    (output : TensorId)
    (a b c : Tensor)
    (x y z v : Binding) : Prop where
  input : p.Bound input a x
  input_kind : x.kind = .scratchpad
  weights : p.Bound weights b y
  weights_kind : y.kind = .scratchpad
  output : p.Bound output c z
  output_kind : z.kind = .accumulator
  bias :
    ∀ t ∈ bias, ∃ d, p.Bound t d v ∧ v.kind = .scratchpad ∧
      d.layout.depth = c.layout.tiles
  rows : c.layout.rows = a.layout.rows
  tiles : c.layout.tiles = b.layout.tiles
  inner : b.layout.rows = a.layout.tiles * p.machine.arraySize

theorem holdsProduct_of_typed
    {weights : TensorId}
    {bias : Option TensorId}
    (hTyped :
      (matMul input weights bias output).Typed p.machine.arraySize
        p.tensors)
    (hBound : p.AllBound (matMul input weights bias output).mentions) :
    ∃ a b c x y z v,
      HoldsProduct p input weights bias output a b c x y z v := by
  cases hTyped with
  | @matMul _ _ _ _ a b c hInput hWeights hOutput hRows hTiles hInner
      hBias =>
      rcases hBound.of_holds (by simp [mentions]) hInput with
        ⟨x, hX, hXKind⟩
      rcases hBound.of_holds (by simp [mentions]) hWeights with
        ⟨y, hY, hYKind⟩
      rcases hBound.of_holds (by simp [mentions]) hOutput with
        ⟨z, hZ, hZKind⟩
      have hVector :
          ∃ v, ∀ t ∈ bias, ∃ d, p.Bound t d v ∧ v.kind = .scratchpad ∧
            d.layout.depth = c.layout.tiles := by
        cases bias with
        | none => exact ⟨x, by simp⟩
        | some t =>
            rcases hBias t rfl with ⟨d, hD, hDepth⟩
            rcases hBound.of_holds (by simp [mentions]) hD with
              ⟨v, hV, hVKind⟩
            refine ⟨v, ?_⟩
            rintro u ⟨⟩
            exact ⟨d, hV, hVKind, hDepth⟩
      rcases hVector with ⟨v, hV⟩
      exact ⟨a, b, c, x, y, z, v, hX, hXKind, hY, hYKind, hZ, hZKind, hV,
        hRows, hTiles, hInner⟩

namespace HoldsProduct

variable {weights : TensorId} {bias : Option TensorId}
variable {a b c : Tensor} {x y z v : Binding}

/- The tiles of a product whose tensors are in place. -/
def tiling
    (_ : HoldsProduct p input weights bias output a b c x y z v) :
    Tiling :=
  { arraySize := p.machine.arraySize, rows := a.layout.rows
    inTiles := a.layout.tiles, outTiles := c.layout.tiles
    weightStride := b.layout.stride }

/- The addresses of a product whose tensors are in place. -/
def place
    (_ : HoldsProduct p input weights bias output a b c x y z v) :
    ProductPlace :=
  { input := x.address, weights := y.address
    bias := bias.map (fun _ => v.address), output := z.address }

theorem instructions_eq
    (hHolds : HoldsProduct p input weights bias output a b c x y z v) :
    (matMul input weights bias output).instructions p =
      .ok (product hHolds.tiling hHolds.place) := by
  have hX := hHolds.input
  have hY := hHolds.weights
  have hZ := hHolds.output
  simp only [instructions, hX.onChip_eq hHolds.input_kind,
    hY.onChip_eq hHolds.weights_kind, hZ.onChip_eq hHolds.output_kind,
    hX.fetch_eq, hY.fetch_eq, hZ.fetch_eq]
  cases bias with
  | none => rfl
  | some t =>
      rcases hHolds.bias t rfl with ⟨d, hV, hVKind, -⟩
      rw [Option.mapM_some, hV.onChip_eq hVKind]
      rfl

/- The regions of the tensors hold all tiles. -/
theorem fits
    (hHolds : HoldsProduct p input weights bias output a b c x y z v)
    (hSize : 0 < p.machine.arraySize) :
    hHolds.tiling.Fits hHolds.place
      (p.Lends (matMul input weights bias output)) := by
  have hX := hHolds.input
  have hY := hHolds.weights
  have hZ := hHolds.output
  constructor
  case rows_pos => exact Nat.pos_of_mul_pos_right hX.depth_pos
  case size_pos => exact hSize
  case stride => exact hHolds.inner
  case input =>
    exact hX.lends _ hHolds.input_kind (by simp [mentions])
  case weights =>
    have hLends := hY.lends (matMul input weights bias output)
      hHolds.weights_kind (by simp [mentions])
    change p.Lends _
      { store := _, start := _
        length := b.layout.rows * c.layout.tiles }
    rw [hHolds.tiles]
    exact hLends
  case bias =>
    intro u hU
    rcases Option.map_eq_some_iff.mp hU with ⟨t, hT, rfl⟩
    rcases hHolds.bias t hT with ⟨d, hV, hVKind, hDepth⟩
    have hLends := hV.lends (matMul input weights bias output) hVKind
      (by simp [mentions, hT])
    rw [hDepth] at hLends
    exact hLends
  case output =>
    have hLends := hZ.lends (matMul input weights bias output)
      hHolds.output_kind (by simp [mentions])
    change p.Lends _
      { store := _, start := _
        length := a.layout.rows * c.layout.tiles }
    rw [← hHolds.rows]
    exact hLends

end HoldsProduct

/- A product whose tensors are in place. -/
theorem matMul_yields
    {weights : TensorId}
    {bias : Option TensorId}
    (hSize : 0 < p.machine.arraySize)
    (hTyped :
      (matMul input weights bias output).Typed p.machine.arraySize
        p.tensors)
    (hBound : p.AllBound (matMul input weights bias output).mentions) :
    Yields ((matMul input weights bias output).instructions p)
      (·.Admissible p.machine)
      (·.Confined (p.Lends (matMul input weights bias output))) := by
  rcases holdsProduct_of_typed hTyped hBound with ⟨a, b, c, x, y, z, v, hHolds⟩
  rw [hHolds.instructions_eq]
  exact product_confined (hHolds.fits hSize)

/- A move between two tensors in place, of the size of both. -/
theorem transfer_confined
    {direction : Direction}
    {u : TensorId}
    {a b : Tensor}
    {x y : Binding}
    (hX : p.Bound t a x)
    (hXKind : x.kind = .scratchpad)
    (hXMem : t ∈ op.mentions)
    (hY : p.Bound u b y)
    (hYKind : y.kind = .accumulator)
    (hYMem : u ∈ op.mentions)
    (hLayout : a.layout = b.layout)
    (hFar : direction.far = .accumulator) :
    (Instruction.dataMove direction x.address y.address
      a.layout.depth).Confined (p.Lends op) := by
  intro s hS
  have hPos := hX.depth_pos
  rcases List.mem_pair.mp hS with rfl | rfl
  · exact ⟨hPos, _, hX.lends op hXKind hXMem, .refl _⟩
  · refine ⟨hPos, _, hY.lends op hYKind hYMem, ?_⟩
    rw [hFar, hLayout]
    exact .refl _

theorem accumulate_yields
    {add : Bool}
    (hTyped :
      (accumulate input output add).Typed p.machine.arraySize p.tensors)
    (hBound : p.AllBound (accumulate input output add).mentions) :
    Yields ((accumulate input output add).instructions p)
      (·.Admissible p.machine)
      (·.Confined (p.Lends (accumulate input output add))) := by
  cases hTyped with
  | @accumulate _ _ _ a b hInput hOutput hLayout =>
      rcases hBound.of_holds (by simp [mentions]) hInput with
        ⟨x, hX, hXKind⟩
      rcases hBound.of_holds (by simp [mentions]) hOutput with
        ⟨y, hY, hYKind⟩
      simp only [instructions, hX.onChip_eq hXKind, hY.onChip_eq hYKind,
        hX.fetch_eq]
      intro k _
      apply transfer_confined hX hXKind (by simp [mentions]) hY hYKind
        (by simp [mentions]) hLayout
      cases add <;> rfl

theorem activate_yields
    {activation : Activation}
    (hTyped :
      (activate input output activation).Typed p.machine.arraySize
        p.tensors)
    (hBound : p.AllBound (activate input output activation).mentions) :
    Yields ((activate input output activation).instructions p)
      (·.Admissible p.machine)
      (·.Confined (p.Lends (activate input output activation))) := by
  cases hTyped with
  | @activate _ _ _ a b hInput hOutput hLayout _ =>
      rcases hBound.of_holds (by simp [mentions]) hInput with
        ⟨x, hX, hXKind⟩
      rcases hBound.of_holds (by simp [mentions]) hOutput with
        ⟨y, hY, hYKind⟩
      have hMove :
          (Instruction.dataMove .accumulatorToLocal y.address x.address
            a.layout.depth).Confined
              (p.Lends (activate input output activation)) := by
        rw [hLayout]
        exact transfer_confined hY hYKind (by simp [mentions]) hX hXKind
          (by simp [mentions]) hLayout.symm rfl
      simp only [instructions, hX.onChip_eq hXKind, hY.onChip_eq hYKind,
        hX.fetch_eq]
      cases activation with
      | identity => exact fun _ _ => hMove
      | relu =>
          have hLends := hX.lends (activate input output .relu) hXKind
            (by simp [mentions])
          intro k hK
          by_cases hRectify : k < a.layout.depth
          · have hGet :
                ((rectify x.address a.layout.depth).append
                    (.single (.dataMove .accumulatorToLocal y.address
                      x.address a.layout.depth))).get k =
                  .simd .relu true true false (x.address + k)
                    (x.address + k) :=
              if_pos hRectify
            rw [hGet]
            intro s hS
            have hVector :
                s = { store := .accumulator, start := x.address + k
                      length := 1 } := by
              simpa [Instruction.spans] using hS
            subst hVector
            refine ⟨Nat.one_pos, _, hLends, rfl, ?_, ?_⟩
            · exact Nat.le_add_right _ _
            · change x.address + k + 1 ≤ x.address + a.layout.depth
              omega
          · have hGet :
                ((rectify x.address a.layout.depth).append
                    (.single (.dataMove .accumulatorToLocal y.address
                      x.address a.layout.depth))).get k =
                  .dataMove .accumulatorToLocal y.address x.address
                    a.layout.depth :=
              if_neg hRectify
            rw [hGet]
            exact hMove

/- An operation of a program whose tensors are in place. -/
theorem instructions_yields
    (hSize : 0 < p.machine.arraySize)
    (hTyped : op.Typed p.machine.arraySize p.tensors)
    (hBound : p.AllBound op.mentions) :
    Yields (op.instructions p) (·.Admissible p.machine)
      (·.Confined (p.Lends op)) := by
  cases hTyped with
  | @load t a hTensor hHome =>
      rcases hBound.of_holds (by simp [mentions]) hTensor with
        ⟨b, hB, hKind⟩
      rcases Option.isSome_iff_exists.mp hHome with ⟨l, hLocation⟩
      exact move_yields .home far_directionFrom (by simp [resource]) rfl
        (by simp [mentions]) hB hKind hLocation hLocation
  | @store t a hTensor hExported =>
      rcases hBound.of_holds (by simp [mentions]) hTensor with
        ⟨b, hB, hKind⟩
      rcases Option.isSome_iff_exists.mp hExported with ⟨l, hLocation⟩
      exact move_yields .exported far_directionTo (by simp [resource]) rfl
        (by simp [mentions]) hB hKind hLocation hLocation
  | matMul hInput hWeights hOutput hRows hTiles hInner hBias =>
      exact matMul_yields hSize
        (.matMul hInput hWeights hOutput hRows hTiles hInner hBias) hBound
  | accumulate hInput hOutput hLayout =>
      exact accumulate_yields (.accumulate hInput hOutput hLayout) hBound
  | activate hInput hOutput hLayout hHome =>
      exact activate_yields (.activate hInput hOutput hLayout hHome) hBound

/- A tensor with a place to wait in is moved there. -/
theorem spill_yields
    {tensor : Tensor}
    {b : Binding}
    {l : DramLocation}
    (hBound : p.Bound t tensor b)
    (hKind : b.kind = .scratchpad)
    (hSpilled : tensor.spilled = some l) :
    Yields ((spill t).instructions p) (·.Admissible p.machine)
      (·.Confined (p.Lends (spill t))) :=
  move_yields .spilled far_directionTo (by simp [resource]) rfl
    (by simp [mentions]) hBound hKind hSpilled hSpilled

/- A tensor with a copy in DRAM is moved back. -/
theorem reload_yields
    {tensor : Tensor}
    {b : Binding}
    {l : DramLocation}
    (hBound : p.Bound t tensor b)
    (hKind : b.kind = .scratchpad)
    (hCopy : tensor.dramCopy = some l) :
    Yields ((reload t).instructions p) (·.Admissible p.machine)
      (·.Confined (p.Lends (reload t))) := by
  rcases Tensor.exists_slot_of_dramCopy hCopy with ⟨slot, hSlot⟩
  exact move_yields slot far_directionFrom (by simp [resource]) rfl
    (by simp [mentions]) hBound hKind hCopy hSlot

end Operations

------------------------------------------------------------
-- Words
------------------------------------------------------------

/- Instructions that have words are encoded in a row. -/
theorem encodeFrom_isOk
    (hEach :
      ∀ i, k ≤ i → i < k + rest →
        ∃ word, w.encode (s.get i) = .ok word) :
    ∃ encoded, w.encodeFrom s rest k is bytes = .ok encoded := by
  induction rest generalizing k is bytes with
  | zero => exact ⟨_, rfl⟩
  | succ rest ih =>
      rcases hEach k (Nat.le_refl k) (by omega) with ⟨word, hWord⟩
      simp only [WordLayout.encodeFrom, hWord]
      apply ih
      intro i hFrom hTo
      exact hEach i (by omega) (by omega)

theorem checkMentions_eq_ok
    {table : TensorTable}
    (hKnown : ∀ t ∈ op.mentions, ∃ tensor, table.get? t = some tensor) :
    op.checkMentions table = .ok () := by
  unfold checkMentions
  cases hFind : op.mentions.find? (fun t => (table.get? t).isNone) with
  | none => rfl
  | some t =>
      have hNone := List.find?_some hFind
      rcases hKnown t (List.mem_of_find?_eq_some hFind) with
        ⟨tensor, hGet⟩
      rw [hGet] at hNone
      cases hNone

theorem checkMentions_of_bound
    (hBound : p.AllBound op.mentions) :
    op.checkMentions p.tensors = .ok () := by
  apply checkMentions_eq_ok
  intro t hMem
  rcases hBound t hMem with ⟨tensor, b, hB⟩
  exact ⟨tensor, hB.entry⟩

theorem encodeFrom_instructions
    (hEncode : w.encodeFrom s rest k is bytes = .ok e) :
    e.instructions = is.reverse ++ (List.range' k rest).map s.get := by
  induction rest generalizing k is bytes with
  | zero =>
      cases hEncode
      simp
  | succ rest ih =>
      unfold WordLayout.encodeFrom at hEncode
      split at hEncode
      case h_1 => cases hEncode
      case h_2 word _ =>
        rw [ih hEncode, List.range'_succ]
        simp

/- What is encoded are the instructions of the operation. -/
theorem encode_eq_ok
    (hEncode : op.encode w p = .ok e) :
    ∃ s, op.instructions p = .ok s ∧ e.instructions = s.toList ∧
      w.encodeSeq s = .ok e := by
  unfold Operation.encode at hEncode
  cases hKnown : op.checkMentions p.tensors with
  | error e' =>
      rw [hKnown] at hEncode
      cases hEncode
  | ok _ =>
      cases hInstructions : op.instructions p with
      | error e' =>
          rw [hKnown, hInstructions] at hEncode
          cases hEncode
      | ok s =>
          rw [hKnown, hInstructions] at hEncode
          refine ⟨s, rfl, ?_⟩
          cases hWords : w.encodeSeq s with
          | error overflow =>
              simp only [bind, Except.bind, hWords] at hEncode
              cases hEncode
          | ok encoded =>
              simp only [bind, Except.bind, hWords] at hEncode
              cases hEncode
              refine ⟨?_, rfl⟩
              rw [encodeFrom_instructions hWords, InstructionSeq.toList,
                List.range_eq_range']
              rfl

/-
  An operation is turned into words if its instructions stay
  inside regions of the memories.
-/
theorem encode_of_confined
    {lends : Span → Prop}
    (hAccepted : p.machine.Accepted w)
    (hLends :
      ∀ r, lends r →
        r.start + r.length ≤ p.machine.depth r.store ∧
          r.start + r.length ≤ Count.limit)
    (hBound : p.AllBound op.mentions)
    (hInstructions : op.instructions p = .ok s)
    (hConfined : s.Confined lends) :
    ∃ e, op.encode w p = .ok e ∧ e.instructions = s.toList := by
  have hKnown := checkMentions_of_bound hBound
  have hWords : ∃ e, w.encodeSeq s = .ok e := by
    apply encodeFrom_isOk
    intro i _ hI
    have hWithin := (hConfined i (by omega)).within hLends
    exact WordLayout.encode_of_within hAccepted.layout hWithin
  rcases hWords with ⟨e, hWords⟩
  have hEncode : op.encode w p = .ok e := by
    unfold Operation.encode
    rw [hKnown, hInstructions]
    simp only [bind, Except.bind, hWords]
    rfl
  rcases encode_eq_ok hEncode with ⟨s', hInstructions', hList, -⟩
  cases hInstructions.symm.trans hInstructions'
  exact ⟨e, hEncode, hList⟩

/- An operation whose tensors are in place is turned into words. -/
theorem encode_yields
    {dram : Dram}
    (hAccepted : p.machine.Accepted w)
    (hLaid : p.tensors.Laid dram)
    (hBound : p.AllBound op.mentions)
    (hInstructions :
      Yields (op.instructions p) (·.Admissible p.machine)
        (·.Confined (p.Lends op))) :
    Yields (op.encode w p) (·.Admissible p.machine)
      (fun _ => True) := by
  cases hRun : op.instructions p with
  | error e =>
      rw [hRun] at hInstructions
      unfold Operation.encode
      rw [hRun, checkMentions_of_bound hBound]
      exact hInstructions
  | ok s =>
      rw [hRun] at hInstructions
      rcases encode_of_confined hAccepted
          (fun r hLends => hLends.inside hAccepted hLaid hBound) hBound hRun
          hInstructions with ⟨e, hEncode, -⟩
      rw [hEncode]
      trivial

theorem encodeFrom_words
    (hEncode : w.encodeFrom s rest k is bytes = .ok e) :
    ∃ words,
      ((List.range' k rest).map s.get).mapM w.encode = .ok words ∧
        e.bytes = bytes.reverse ++ words.flatten := by
  induction rest generalizing k is bytes with
  | zero =>
      cases hEncode
      exact ⟨[], rfl, (List.append_nil _).symm⟩
  | succ rest ih =>
      unfold WordLayout.encodeFrom at hEncode
      split at hEncode
      case h_1 => cases hEncode
      case h_2 word hWord =>
        rcases ih hEncode with ⟨words, hWords, hBytes⟩
        refine ⟨word :: words, ?_, ?_⟩
        · rw [List.range'_succ, List.map_cons, List.mapM_cons, hWord,
            hWords]
          rfl
        · rw [hBytes, List.reverseAux_eq, List.reverse_append,
            List.reverse_reverse, List.flatten_cons, List.append_assoc]

/- The bytes of an operation are the words of its instructions. -/
theorem encode_words
    (hEncode : op.encode w p = .ok e) :
    ∃ words,
      e.instructions.mapM w.encode = .ok words ∧
        e.bytes = words.flatten := by
  rcases encode_eq_ok hEncode with ⟨s, -, hList, hSeq⟩
  rcases encodeFrom_words hSeq with ⟨words, hWords, hBytes⟩
  refine ⟨words, ?_, hBytes⟩
  rw [hList, InstructionSeq.toList, List.range_eq_range']
  exact hWords

/- The cycles of an operation whose tensors are known. -/
theorem cycles_isOk
    {m : Machine}
    {table : TensorTable}
    (hBus : 0 < m.busWidth)
    (hKnown : ∀ t ∈ op.mentions, ∃ tensor, table.get? t = some tensor) :
    ∃ n, op.cycles m table = .ok n := by
  have hFetch :
      ∀ t ∈ op.mentions, ∃ tensor, table.fetch t = .ok tensor := by
    intro t hMem
    rcases hKnown t hMem with ⟨tensor, hGet⟩
    exact ⟨tensor, TensorTable.fetch_eq_ok hGet⟩
  unfold cycles
  rw [if_neg (by omega)]
  cases op with
  | matMul input weights bias output =>
      rcases hFetch input (by simp [mentions]) with ⟨a, hA⟩
      rcases hFetch output (by simp [mentions]) with ⟨c, hC⟩
      simp only [hA, hC]
      exact ⟨_, rfl⟩
  | accumulate input output add =>
      rcases hFetch input (by simp [mentions]) with ⟨a, hA⟩
      simp only [hA]
      exact ⟨_, rfl⟩
  | activate input output activation =>
      rcases hFetch input (by simp [mentions]) with ⟨a, hA⟩
      cases activation with
      | identity =>
          simp only [hA]
          exact ⟨_, rfl⟩
      | relu =>
          simp only [hA]
          exact ⟨_, rfl⟩
  | _ t =>
      rcases hFetch t (by simp [mentions]) with ⟨a, hA⟩
      simp only [moveCycles, hA]
      exact ⟨_, rfl⟩

end Operation

end Systolic
