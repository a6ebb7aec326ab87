import Systolic.Proofs.Compile.Stages

/-
  This file proves that the instructions of a product compute it.
  They are executed on a machine that latches blocks of weights,
  for any addition of vectors and any product of a vector with a
  block. Each output vector becomes the sum of its products from
  left to right, seeded with the bias, and nothing else changes.

  Key definitions include:
    * `Arithmetic`
    * `Datapath`
    * `Datapath.HasProduct`
    * `Operation.ComputesProduct`

  Key theorems include:
    * `Operation.run_tiles`
    * `Operation.HoldsProduct.computes`
    * `lowered_product_computed`
-/

namespace Systolic

------------------------------------------------------------
-- Arithmetic
------------------------------------------------------------

/- Vectors with a sum and with products by blocks of weights. -/
structure Arithmetic (α : Type) where
  zero : α
  add : α → α → α
  mul : α → List α → α

/- The first products are added from left to right. -/
def Arithmetic.accumulate
    {α : Type}
    (A : Arithmetic α)
    (seed : α)
    (count : Nat)
    (vector : Nat → α)
    (block : Nat → List α) : α :=
  (List.range count).foldl
    (fun sum i => A.add sum (A.mul (vector i) (block i))) seed

theorem Arithmetic.accumulate_succ
    {α : Type}
    (A : Arithmetic α)
    (seed : α)
    (count : Nat)
    (vector : Nat → α)
    (block : Nat → List α) :
    A.accumulate seed (count + 1) vector block =
      A.add (A.accumulate seed count vector block)
        (A.mul (vector count) (block count)) := by
  simp [accumulate, List.range_succ]

------------------------------------------------------------
-- Accumulators
------------------------------------------------------------

variable {α : Type}

namespace Contents

/- The memories after accumulator vectors were set. -/
def fill
    (m : Contents α)
    (start count : Nat)
    (f : Nat → α) : Contents α := fun store address =>
  if store = .accumulator ∧ start ≤ address ∧ address < start + count then
    f (address - start)
  else m store address

variable {m : Contents α} {start count : Nat} {f g : Nat → α}

theorem fill_of_lt
    {r : Nat}
    (hInside : r < count) :
    m.fill start count f .accumulator (start + r) = f r := by
  unfold fill
  rw [if_pos ⟨rfl, by omega, by omega⟩, Nat.add_sub_cancel_left]

theorem fill_of_outside
    {store : Store}
    {address : Nat}
    (hOutside :
      store = .accumulator →
        address < start ∨ start + count ≤ address) :
    m.fill start count f store address = m store address := by
  unfold fill
  rw [if_neg]
  rintro ⟨hStore, hFrom, hTo⟩
  rcases hOutside hStore with hBefore | hAfter
  · omega
  · omega

@[simp] theorem fill_scratchpad
    (address : Nat) :
    m.fill start count f .scratchpad address = m .scratchpad address :=
  fill_of_outside (fun hStore => by cases hStore)

@[simp] theorem read_fill_scratchpad
    (first length : Nat) :
    (m.fill start count f).read
        { store := .scratchpad, start := first, length } =
      m.read { store := .scratchpad, start := first, length } := by
  simp [read]

theorem fill_congr
    (hSame : ∀ r < count, f r = g r) :
    m.fill start count f = m.fill start count g := by
  funext store address
  unfold fill
  split
  case isTrue hInside => exact hSame _ (by omega)
  case isFalse => rfl

/- Nothing is left of vectors that are set again. -/
theorem fill_fill :
    (m.fill start count f).fill start count g = m.fill start count g := by
  funext store address
  unfold fill
  split
  case isTrue => rfl
  case isFalse => rfl

/- Vectors that are set next to each other are set at once. -/
theorem fill_append
    (more : Nat) :
    (m.fill start count f).fill (start + count) more
        (fun r => f (count + r)) =
      m.fill start (count + more) f := by
  funext store address
  unfold fill
  split
  case isTrue hNew =>
    have hIndex : count + (address - (start + count)) = address - start := by
      omega
    rw [if_pos ⟨hNew.1, by omega, by omega⟩]
    exact congrArg f hIndex
  case isFalse hOld =>
    by_cases hInside :
        store = .accumulator ∧ start ≤ address ∧ address < start + count
    · rw [if_pos hInside, if_pos ⟨hInside.1, hInside.2.1, by omega⟩]
    · rw [if_neg hInside, if_neg]
      rintro ⟨hStore, hFrom, hTo⟩
      by_cases hEarly : address < start + count
      · exact hInside ⟨hStore, hFrom, hEarly⟩
      · exact hOld ⟨hStore, by omega, by omega⟩

theorem fill_zero :
    m.fill start 0 f = m := by
  funext store address
  exact fill_of_outside (fun _ => by omega)

end Contents

------------------------------------------------------------
-- Execution
------------------------------------------------------------

/- What the memories hold, and the weights that are latched. -/
structure Datapath (α : Type) where
  memory : Contents α
  weights : List α

namespace Datapath

/-
  One instruction of a product. The vectors of a weight block are
  latched, rows are multiplied by the block, or vectors are
  copied to the accumulator memory. No other instruction is
  executed here.
-/
def step
    (A : Arithmetic α)
    (s : Datapath α) : Instruction → Option (Datapath α)
| .loadWeight false x n =>
    some { s with
      weights :=
        s.memory.read { store := .scratchpad, start := x, length := n } }
| .matMul accumulate false x out n =>
    some { s with
      memory := s.memory.fill out n (fun r =>
        A.add
          (if accumulate then s.memory .accumulator (out + r) else A.zero)
          (A.mul (s.memory .scratchpad (x + r)) s.weights)) }
| .dataMove .localToAccumulator x out n =>
    some { s with
      memory := s.memory.fill out n (fun r =>
        s.memory .scratchpad (x + r)) }
| _ => none

/- Instructions in a row. -/
def run
    (A : Arithmetic α)
    (s : Datapath α)
    (is : List Instruction) : Option (Datapath α) :=
  is.foldlM (step A) s

variable {A : Arithmetic α} {s s' : Datapath α} {is : List Instruction}

theorem run_append
    (hRun : s.run A is = some s')
    (is' : List Instruction) :
    s.run A (is ++ is') = s'.run A is' := by
  unfold run at *
  rw [List.foldlM_append, hRun]
  rfl

theorem run_cons
    {i : Instruction}
    (hStep : s.step A i = some s')
    (is : List Instruction) :
    s.run A (i :: is) = s'.run A is := by
  unfold run
  rw [List.foldlM_cons, hStep]
  rfl

end Datapath

------------------------------------------------------------
-- Tiles
------------------------------------------------------------

theorem div_mod_of_lt
    {length k : Nat}
    (n : Nat)
    (hInside : k < length) :
    (n * length + k) / length = n ∧ (n * length + k) % length = k := by
  rw [Nat.mul_comm, Nat.mul_add_div (by omega), Nat.mul_add_mod,
    Nat.div_eq_of_lt hInside, Nat.mod_eq_of_lt hInside]
  exact ⟨rfl, rfl⟩

/- Instructions that are numbered by quotient and remainder. -/
theorem map_range_mul
    {β : Type}
    (f : Nat → Nat → β)
    (n length : Nat) :
    (List.range (n * length)).map (fun k => f (k / length) (k % length)) =
      (List.range n).flatMap (fun j => (List.range length).map (f j)) := by
  induction n with
  | zero => simp
  | succ n ih =>
      rw [Nat.succ_mul, List.range_add, List.map_append, ih,
        List.range_succ, List.flatMap_append, List.flatMap_singleton,
        List.map_map]
      congr 1
      apply List.map_congr_left
      intro k hK
      rcases div_mod_of_lt n (List.mem_range.mp hK) with ⟨hDiv, hMod⟩
      rw [Function.comp, hDiv, hMod]

namespace Operation

variable {s : Tiling} {a : ProductPlace} {j : Nat}

theorem toList_product :
    (product s a).toList =
      (List.range s.outTiles).flatMap (fun j =>
        (List.range (tileLength s a)).map (tileInstruction s a j)) :=
  map_range_mul (tileInstruction s a) s.outTiles (tileLength s a)

/- The bias rows of an output tile. -/
def seeds
    (s : Tiling)
    (a : ProductPlace)
    (j : Nat) : List Instruction :=
  match a.bias with
  | none => []
  | some b => (List.range s.rows).map (seedRow s a b j)

/- An output tile is seeded first. -/
theorem tile_eq :
    (List.range (tileLength s a)).map (tileInstruction s a j) =
      seeds s a j ++
        (List.range (2 * s.inTiles)).map (blockHalf s a j) := by
  unfold tileLength tileInstruction seeds
  cases a.bias with
  | none => simp
  | some b =>
      simp only [Option.isSome_some, if_true]
      rw [List.range_add, List.map_append, List.map_map]
      congr 1
      · apply List.map_congr_left
        intro r hR
        exact if_pos (List.mem_range.mp hR)
      · apply List.map_congr_left
        intro k _
        simp

variable {A : Arithmetic α} {d : Datapath α}

/- The vector that a row of an output tile starts with. -/
def seedOf
    (A : Arithmetic α)
    (m : Contents α)
    (a : ProductPlace)
    (j : Nat) : α :=
  match a.bias with
  | none => A.zero
  | some b => m .scratchpad (b + j)

/- The block of weights of an input tile and an output tile. -/
def weightBlock
    (m : Contents α)
    (s : Tiling)
    (a : ProductPlace)
    (j i : Nat) : List α :=
  m.read
    { store := .scratchpad
      start := a.weights + j * s.weightStride + i * s.arraySize
      length := s.arraySize }

/- The sum of the products with the first blocks of weights. -/
def partialSum
    (A : Arithmetic α)
    (m : Contents α)
    (s : Tiling)
    (a : ProductPlace)
    (seed : α)
    (j r count : Nat) : α :=
  A.accumulate seed count
    (fun i => m .scratchpad (a.input + i * s.rows + r))
    (weightBlock m s a j)

section Fill

variable {m : Contents α} {start count : Nat} {f : Nat → α}

@[simp] theorem seedOf_fill :
    seedOf A (m.fill start count f) a j = seedOf A m a j := by
  unfold seedOf
  cases a.bias <;> simp

@[simp] theorem weightBlock_fill
    (i : Nat) :
    weightBlock (m.fill start count f) s a j i = weightBlock m s a j i :=
  Contents.read_fill_scratchpad _ _

/- Only the scratchpad is read for products. -/
@[simp] theorem partialSum_fill
    (seed : α)
    (r n : Nat) :
    partialSum A (m.fill start count f) s a seed j r n =
      partialSum A m s a seed j r n := by
  unfold partialSum Arithmetic.accumulate
  simp

end Fill

/- Rows that are seeded one after another. -/
theorem run_seedRows
    (b n : Nat) :
    d.run A ((List.range n).map (seedRow s a b j)) =
      some { d with
        memory := d.memory.fill (a.output + j * s.rows) n
          (fun _ => d.memory .scratchpad (b + j)) } := by
  induction n with
  | zero =>
      rw [Contents.fill_zero]
      rfl
  | succ n ih =>
      rw [List.range_succ, List.map_append, Datapath.run_append ih,
        List.map_singleton, Datapath.run_cons rfl]
      refine congrArg some (congrArg (Datapath.mk · d.weights) ?_)
      rw [← Contents.fill_append]
      apply Contents.fill_congr
      intro r hR
      dsimp only
      rw [Contents.fill_scratchpad, Nat.lt_one_iff.mp hR, Nat.add_zero]

/- One block of weights is latched and multiplied with. -/
theorem run_block
    (i : Nat) :
    d.run A [blockHalf s a j (2 * i), blockHalf s a j (2 * i + 1)] =
      some
        { memory :=
            d.memory.fill (a.output + j * s.rows) s.rows (fun r =>
              A.add
                (if a.bias.isSome || 0 < i then
                  d.memory .accumulator (a.output + j * s.rows + r)
                else A.zero)
                (A.mul (d.memory .scratchpad (a.input + i * s.rows + r))
                  (weightBlock d.memory s a j i)))
          weights := weightBlock d.memory s a j i } := by
  have hEven :
      blockHalf s a j (2 * i) =
        .loadWeight false
          (a.weights + j * s.weightStride + i * s.arraySize)
          s.arraySize := by
    simp [blockHalf]
  have hOdd :
      blockHalf s a j (2 * i + 1) =
        .matMul (a.bias.isSome || 0 < i) false (a.input + i * s.rows)
          (a.output + j * s.rows) s.rows := by
    have hHalf : (2 * i + 1) / 2 = i := by omega
    simp [blockHalf, hHalf, Nat.add_mod]
  rw [hEven, hOdd, Datapath.run_cons rfl, Datapath.run_cons rfl]
  rfl

/-
  After its first blocks, an output tile has the sums of their
  products. The first block adds to what a seeded tile holds, and
  to zero otherwise.
-/
theorem run_blocks
    (count : Nat) :
    d.run A ((List.range (2 * (count + 1))).map (blockHalf s a j)) =
      some
        { memory :=
            d.memory.fill (a.output + j * s.rows) s.rows (fun r =>
              partialSum A d.memory s a
                (if a.bias.isSome then
                  d.memory .accumulator (a.output + j * s.rows + r)
                else A.zero) j r (count + 1))
          weights := weightBlock d.memory s a j count } := by
  induction count with
  | zero =>
      change d.run A [blockHalf s a j (2 * 0), blockHalf s a j (2 * 0 + 1)] =
        _
      rw [run_block]
      refine congrArg some (congrArg (Datapath.mk · _) ?_)
      apply Contents.fill_congr
      intro r _
      rw [partialSum, Arithmetic.accumulate_succ]
      simp [Arithmetic.accumulate]
  | succ count ih =>
      have hSplit :
          List.range (2 * (count + 1 + 1)) =
            List.range (2 * (count + 1)) ++
              [2 * (count + 1), 2 * (count + 1) + 1] := by
        rw [Nat.mul_succ 2 (count + 1), List.range_succ, List.range_succ,
          List.append_assoc]
        rfl
      rw [hSplit, List.map_append, Datapath.run_append ih]
      change Datapath.run A _
        [blockHalf s a j (2 * (count + 1)),
          blockHalf s a j (2 * (count + 1) + 1)] = _
      rw [run_block, Contents.fill_fill, weightBlock_fill]
      refine congrArg some (congrArg (Datapath.mk · _) ?_)
      apply Contents.fill_congr
      intro r hR
      dsimp only
      rw [if_pos (by simp), Contents.fill_of_lt hR,
        Contents.fill_scratchpad, partialSum, partialSum,
        Arithmetic.accumulate_succ _ _ (count + 1)]

/- The rows of an output tile are seeded and then summed up. -/
theorem run_tile
    (hTiles : 0 < s.inTiles) :
    ∃ w,
      d.run A
          ((List.range (tileLength s a)).map (tileInstruction s a j)) =
        some
          { memory :=
              d.memory.fill (a.output + j * s.rows) s.rows (fun r =>
                partialSum A d.memory s a (seedOf A d.memory a j) j r
                  s.inTiles)
            weights := w } := by
  rcases Nat.exists_eq_add_of_le' hTiles with ⟨count, hCount⟩
  rw [tile_eq, hCount]
  unfold seeds seedOf
  cases hBias : a.bias with
  | none =>
      refine ⟨weightBlock d.memory s a j count, ?_⟩
      rw [List.nil_append, run_blocks, hBias]
      rfl
  | some b =>
      refine ⟨weightBlock d.memory s a j count, ?_⟩
      rw [Datapath.run_append (run_seedRows b s.rows), run_blocks,
        Contents.fill_fill, weightBlock_fill, hBias]
      refine congrArg some (congrArg (Datapath.mk · _) ?_)
      apply Contents.fill_congr
      intro r hR
      simp only [Option.isSome_some, if_true, Contents.fill_of_lt hR,
        partialSum_fill]

/- The output tiles are summed up one after another. -/
theorem run_tiles
    (n : Nat)
    (hTiles : 0 < s.inTiles) :
    ∃ w,
      d.run A
          ((List.range n).flatMap (fun j =>
            (List.range (tileLength s a)).map (tileInstruction s a j))) =
        some
          { memory :=
              d.memory.fill a.output (n * s.rows) (fun k =>
                partialSum A d.memory s a
                  (seedOf A d.memory a (k / s.rows)) (k / s.rows)
                  (k % s.rows) s.inTiles)
            weights := w } := by
  induction n with
  | zero =>
      refine ⟨d.weights, ?_⟩
      rw [Nat.zero_mul, Contents.fill_zero]
      rfl
  | succ n ih =>
      rcases ih with ⟨w, hRun⟩
      rcases run_tile (A := A) (j := n) (a := a)
          (d :=
            { memory :=
                d.memory.fill a.output (n * s.rows) (fun k =>
                  partialSum A d.memory s a
                    (seedOf A d.memory a (k / s.rows)) (k / s.rows)
                    (k % s.rows) s.inTiles)
              weights := w }) hTiles with ⟨w', hTile⟩
      refine ⟨w', ?_⟩
      rw [List.range_succ, List.flatMap_append, List.flatMap_singleton,
        Datapath.run_append hRun, hTile]
      refine congrArg some (congrArg (Datapath.mk · w') ?_)
      rw [Nat.succ_mul, ← Contents.fill_append]
      apply Contents.fill_congr
      intro r hR
      rcases div_mod_of_lt n hR with ⟨hDiv, hMod⟩
      rw [hDiv, hMod, partialSum_fill, seedOf_fill]

end Operation

------------------------------------------------------------
-- Products in Place
------------------------------------------------------------

/- The vector of a tensor at a distance from its address. -/
def Binding.vector
    (b : Binding)
    (m : Contents α)
    (k : Nat) : α :=
  m b.kind.store (b.address + k)

/- The vectors of a tensor from a distance on. -/
def Binding.vectors
    (b : Binding)
    (m : Contents α)
    (first count : Nat) : List α :=
  (List.range count).map (fun k => b.vector m (first + k))

/-
  The product of the input `a` by the weights `b` is in the output
  `c`. Each of its vectors is the sum, from left to right, of the
  products of the input vectors of its row by the blocks of `n`
  rows of weights in its column tile, after the bias vector of the
  tile. Outside the output nothing has changed.
-/
structure Datapath.HasProduct
    (A : Arithmetic α)
    (n : Nat)
    (biased : Bool)
    (a b c : Tensor)
    (x y z v : Binding)
    (d d' : Datapath α) : Prop where
  output :
    ∀ j < c.layout.tiles, ∀ r < a.layout.rows,
      z.vector d'.memory (j * a.layout.rows + r) =
        A.accumulate
          (if biased then v.vector d.memory j else A.zero)
          a.layout.tiles
          (fun i => x.vector d.memory (i * a.layout.rows + r))
          (fun i => y.vectors d.memory (j * b.layout.rows + i * n) n)
  unchanged :
    ∀ store address,
      (store = .accumulator →
        address < z.address ∨ z.address + z.size ≤ address) →
      d'.memory store address = d.memory store address

namespace Operation

variable {p : Placement} {input weights output : TensorId}
variable {bias : Option TensorId}

/-
  Instructions compute a product whose tensors are in place, on
  any machine that executes them and whatever its memories hold.
-/
def ComputesProduct
    (p : Placement)
    (input weights : TensorId)
    (bias : Option TensorId)
    (output : TensorId)
    (is : List Instruction) : Prop :=
  ∃ a b c x y z v,
    HoldsProduct p input weights bias output a b c x y z v ∧
      ∀ {α : Type} (A : Arithmetic α) (d : Datapath α),
        ∃ d', d.run A is = some d' ∧
          Datapath.HasProduct A p.machine.arraySize bias.isSome a b c
            x y z v d d'

section Places

variable {a b c : Tensor} {x y z v : Binding} {m : Contents α}

section

variable (hHolds : HoldsProduct p input weights bias output a b c x y z v)
include hHolds

theorem HoldsProduct.seedOf_eq
    (A : Arithmetic α)
    (j : Nat) :
    seedOf A m hHolds.place j =
      if bias.isSome then v.vector m j else A.zero := by
  cases bias with
  | none => rfl
  | some t =>
      rcases hHolds.bias t rfl with ⟨-, -, hKind, -⟩
      rw [Binding.vector, hKind]
      rfl

theorem HoldsProduct.weightBlock_eq
    (j i : Nat) :
    weightBlock m hHolds.tiling hHolds.place j i =
      y.vectors m (j * b.layout.rows + i * p.machine.arraySize)
        p.machine.arraySize := by
  apply List.map_congr_left
  intro k _
  rw [Binding.vector, hHolds.weights_kind]
  change m .scratchpad
    (y.address + j * b.layout.rows + i * p.machine.arraySize + k) = _
  simp only [Nat.add_assoc]
  rfl

theorem HoldsProduct.partialSum_eq
    (A : Arithmetic α)
    (seed : α)
    (j r : Nat) :
    partialSum A m hHolds.tiling hHolds.place seed j r a.layout.tiles =
      A.accumulate seed a.layout.tiles
        (fun i => x.vector m (i * a.layout.rows + r))
        (fun i =>
          y.vectors m (j * b.layout.rows + i * p.machine.arraySize)
            p.machine.arraySize) := by
  have hVectors :
      (fun i => m .scratchpad
        (hHolds.place.input + i * hHolds.tiling.rows + r)) =
      (fun i => x.vector m (i * a.layout.rows + r)) := by
    funext i
    rw [Binding.vector, hHolds.input_kind, Nat.add_assoc]
    rfl
  unfold partialSum
  rw [hVectors, funext (hHolds.weightBlock_eq j)]

/- The output of a product in place is all that is set. -/
theorem HoldsProduct.run_product
    (A : Arithmetic α)
    (d : Datapath α) :
    ∃ w,
      d.run A (product hHolds.tiling hHolds.place).toList =
        some
          { memory :=
              d.memory.fill z.address (c.layout.tiles * a.layout.rows)
                (fun k =>
                  partialSum A d.memory hHolds.tiling hHolds.place
                    (seedOf A d.memory hHolds.place (k / a.layout.rows))
                    (k / a.layout.rows) (k % a.layout.rows)
                    a.layout.tiles)
            weights := w } := by
  rw [toList_product]
  exact run_tiles c.layout.tiles
    (Nat.pos_of_mul_pos_left hHolds.input.depth_pos)

end

end Places

/- The instructions of a product in place compute it. -/
theorem HoldsProduct.computes
    {a b c : Tensor}
    {x y z v : Binding}
    (hHolds : HoldsProduct p input weights bias output a b c x y z v) :
    ComputesProduct p input weights bias output
      (product hHolds.tiling hHolds.place).toList := by
  refine ⟨a, b, c, x, y, z, v, hHolds, ?_⟩
  intro α A d
  rcases hHolds.run_product A d with ⟨w, hRun⟩
  refine ⟨_, hRun, ?_, ?_⟩
  · intro j hJ r hR
    rcases div_mod_of_lt j hR with ⟨hDiv, hMod⟩
    have hInside :
        j * a.layout.rows + r < c.layout.tiles * a.layout.rows := by
      have hTile := tile_le a.layout.rows hJ
      rw [Nat.mul_comm c.layout.tiles]
      omega
    rw [Binding.vector, hHolds.output_kind, MemoryKind.store]
    dsimp only
    rw [Contents.fill_of_lt hInside, hDiv, hMod, hHolds.seedOf_eq,
      hHolds.partialSum_eq]
  · intro store address hOutside
    rw [hHolds.output.size_eq, VectorLayout.depth, hHolds.rows,
      Nat.mul_comm] at hOutside
    dsimp only
    exact Contents.fill_of_outside hOutside

/- An operation of the array is lent nothing in DRAM. -/
theorem lends_inside_of_compute
    {op : Operation}
    {w : WordLayout}
    {r : Span}
    (hAccepted : p.machine.Accepted w)
    (hCompute : op.resource = .compute)
    (hBound : p.AllBound op.mentions)
    (hLends : p.Lends op r) :
    r.start + r.length ≤ p.machine.depth r.store ∧
      r.start + r.length ≤ Count.limit := by
  cases hLends with
  | onChip hMem hBinding => exact hBound.inside hAccepted hMem hBinding
  | inDram hMoves => exact absurd hCompute hMoves

end Operation

------------------------------------------------------------
-- Lowered Products
------------------------------------------------------------

/-
  A product of a lowered program whose tensors are in place is
  turned into instructions that compute it.
-/
theorem lowered_product_computed
    {ν : Type}
    [DecidableEq ν]
    (net : Network ν)
    (outputs : List String)
    (nodes : List ν)
    {m : Machine}
    {bench bench' : Workbench}
    {program : List Operation}
    {p : Placement}
    {input weights output : TensorId}
    {bias : Option TensorId}
    (hBench : Workbench.ofMachine m = .ok bench)
    (hLower : lowerNodes net outputs nodes bench = .ok (program, bench'))
    (hMem : .matMul input weights bias output ∈ program)
    (hMachine : p.machine = m)
    (hTensors : bench'.tensors.Extends p.tensors)
    (hResident :
      p.AllBound (Operation.matMul input weights bias output).mentions) :
    ∃ e,
      (Operation.matMul input weights bias output).encode bench.layout p =
          .ok e ∧
        Operation.ComputesProduct p input weights bias output
          e.instructions := by
  rcases Workbench.ofMachine_ok hBench with ⟨hSize, layout, hCheck, rfl⟩
  rcases lowered_of_lowerNodes hSize hLower with
    ⟨roots, s, ⟨-, hAll, hSound, -⟩, rfl, rfl⟩
  have hSame : s.bench.machine = m := hAll.untouched.machine_eq
  have hTyped := (hSound.program.typed hMem).extend hTensors
  rw [hSame, ← hMachine] at hTyped
  have hAccepted := Machine.accepted_of_check hCheck
  rw [← hMachine] at hAccepted
  rcases Operation.holdsProduct_of_typed hTyped hResident with
    ⟨a, b, c, x, y, z, v, hHolds⟩
  have hConfined := Operation.product_confined
    (hHolds.fits hAccepted.arraySize_pos)
  have hInside := fun r =>
    Operation.lends_inside_of_compute (r := r) hAccepted rfl hResident
  rcases Operation.encode_of_confined hAccepted hInside hResident
      hHolds.instructions_eq hConfined with ⟨e, hEncode, hList⟩
  refine ⟨e, hEncode, ?_⟩
  rw [hList]
  exact hHolds.computes

/- Whether a tensor is in place can be checked. -/
instance
    (p : Placement)
    (ts : List TensorId) :
    Decidable (p.AllBound ts) :=
  decidable_of_iff
    (∀ t ∈ ts, ∃ b ∈ p.memory.binding? t, ∃ tensor ∈ p.tensors.get? t,
      b.kind = tensor.kind ∧ b.size = tensor.layout.depth ∧ 0 < b.size ∧
        b.address + b.size ≤ p.machine.depth b.kind.store)
    ⟨fun hAll t hT =>
      let ⟨b, hB, tensor, hEntry, hKind, hSize, hPos, hInside⟩ := hAll t hT
      ⟨tensor, b, hB, hEntry, hKind, hSize, hPos, hInside⟩,
    fun hAll t hT =>
      let ⟨tensor, b, hBound⟩ := hAll t hT
      ⟨b, hBound.binding, tensor, hBound.entry, hBound.kind_eq,
        hBound.size_eq, hBound.size_pos, hBound.inside⟩⟩

/- A product of two by two tiles, with a bias. -/
def tiledProduct : Network Nat where
  nodes := [0, 1, 2, 3]
  find? := fun name => if name = "product" then some 3 else none
  name := fun n => ["input", "weights", "bias", "product"].getD n ""
  op := fun n =>
    [NodeOp.input [2, 4], .constant [4, 4], .constant [4],
      .matMul].getD n .matMul
  operands := fun n => [[], [], [], [0, 1, 2]].getD n []

/- A small array with memories that hold the product. -/
def smallArray : Machine :=
  { Machine.standard with
    arraySize := 2, localDepth := 16, accumulatorDepth := 8 }

/- The operands behind each other, and the output behind a gap. -/
def tiledPlacement (table : TensorTable) : Placement where
  machine := smallArray
  tensors := table
  memory :=
    let bind := fun (t : Nat) kind address size =>
      { binding := .opened ⟨t⟩ kind address size 0, entry := t, pins := 0
        nextUse := none : Resident }
    { Memory.empty 16 8 with
      residents :=
        [bind 0 .scratchpad 10 4, bind 1 .scratchpad 0 8,
          bind 2 .scratchpad 8 2, bind 3 .accumulator 3 4] }

/-
  Each of two output tiles is seeded by two moves and takes two
  blocks of weights.
-/
theorem lowered_product_computed_tiledProduct :
    ∃ (program : List Operation) (bench : Workbench) (e : Encoded),
      lowerNodes tiledProduct ["product"] [0, 1, 2, 3]
          (.start smallArray
            { slot0 := 4, slot1 := 20, slot2 := 4, wordBits := 40 }) =
        .ok (program, bench) ∧
      .matMul ⟨0⟩ ⟨1⟩ (some ⟨2⟩) ⟨3⟩ ∈ program ∧
      e.instructions.length = 12 ∧
      Operation.ComputesProduct (tiledPlacement bench.tensors)
        ⟨0⟩ ⟨1⟩ (some ⟨2⟩) ⟨3⟩ e.instructions := by
  have hBench :
      Workbench.ofMachine smallArray =
        .ok (.start smallArray
          { slot0 := 4, slot1 := 20, slot2 := 4, wordBits := 40 }) := by
    decide +kernel
  have hFacts :
      (lowerNodes tiledProduct ["product"] [0, 1, 2, 3]
        (.start smallArray
          { slot0 := 4, slot1 := 20, slot2 := 4
            wordBits := 40 })).toOption.map
        (fun lowered =>
          (decide (.matMul ⟨0⟩ ⟨1⟩ (some ⟨2⟩) ⟨3⟩ ∈ lowered.1),
            decide ((tiledPlacement lowered.2.tensors).AllBound
              (Operation.matMul ⟨0⟩ ⟨1⟩ (some ⟨2⟩) ⟨3⟩).mentions),
            ((Operation.matMul ⟨0⟩ ⟨1⟩ (some ⟨2⟩) ⟨3⟩).encode
              { slot0 := 4, slot1 := 20, slot2 := 4, wordBits := 40 }
              (tiledPlacement lowered.2.tensors)).toOption.map
                (·.instructions.length))) =
      some (true, true, some 12) := by
    decide +kernel
  cases hLower :
      lowerNodes tiledProduct ["product"] [0, 1, 2, 3]
        (.start smallArray
          { slot0 := 4, slot1 := 20, slot2 := 4, wordBits := 40 }) with
  | error e =>
      rw [hLower] at hFacts
      cases hFacts
  | ok lowered =>
      rcases lowered with ⟨program, bench⟩
      rw [hLower] at hFacts
      have hSeen := Option.some.inj hFacts
      simp only [Prod.mk.injEq, decide_eq_true_eq] at hSeen
      rcases hSeen with ⟨hMem, hResident, hLength⟩
      rcases lowered_product_computed tiledProduct ["product"]
          [0, 1, 2, 3] hBench hLower hMem rfl (.refl _) hResident with
        ⟨e, hEncode, hComputes⟩
      refine ⟨program, bench, e, rfl, hMem, ?_, hComputes⟩
      change (Operation.matMul ⟨0⟩ ⟨1⟩ (some ⟨2⟩) ⟨3⟩).encode
        { slot0 := 4, slot1 := 20, slot2 := 4, wordBits := 40 }
        (tiledPlacement bench.tensors) = .ok e at hEncode
      rw [hEncode] at hLength
      exact Option.some.inj hLength

end Systolic
