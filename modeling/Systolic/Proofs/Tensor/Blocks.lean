import Mathlib.Algebra.BigOperators.Ring.List
import Mathlib.Algebra.Order.Floor.Div
import Mathlib.Data.Set.Function
import Systolic.Proofs.Tensor.Layout

/-
  This file proves that layouts are exact. A shape has a layout
  exactly if the number of its vectors is a count, since the checks
  on the way never refuse what the last one allows. The rows of
  the tiles number the vectors without a gap, and the vectors of
  a weight matrix fall into blocks, each of them one run.

  Key definitions include:
    * `VectorLayout.place`
    * `VectorLayout.block`
    * `VectorLayout.Blocked`

  Key theorems include:
    * `VectorLayout.bijOn_place`
    * `VectorLayout.blocked_of_rows`
    * `VectorLayout.layouts_exact`
-/

namespace Systolic

------------------------------------------------------------
-- Products of Counts
------------------------------------------------------------

namespace Count

theorem ceilDiv_eq
    (a : Nat)
    {b : Nat}
    (hB : 0 < b) :
    ceilDiv a b = a ⌈/⌉ b := by
  rw [Nat.ceilDiv_eq_add_pred_div, Nat.add_sub_assoc hB]
  rfl

theorem le_ceilDiv_mul
    (a : Nat)
    {b : Nat}
    (hB : 0 < b) :
    a ≤ (a ⌈/⌉ b) * b := by
  have hCeil := le_smul_ceilDiv (b := a) hB
  rwa [smul_eq_mul, Nat.mul_comm] at hCeil

/-
  No partial product of positive counts exceeds the whole one, so
  the checks of all of them come down to a single check.
-/
theorem foldlM_mul?
    {dims : List Nat}
    {start : Nat}
    (hDims : 0 ∉ dims)
    (hStart : start < limit) :
    dims.foldlM mul? start = mul? start dims.prod := by
  induction dims generalizing start with
  | nil => simp [mul?, hStart]
  | cons d dims ih =>
      have hRest : 0 ∉ dims :=
        fun h => hDims (List.mem_cons_of_mem _ h)
      rw [List.foldlM_cons, List.prod_cons]
      by_cases hLimit : start * d < limit
      · have hStep : mul? start d = some (start * d) := if_pos hLimit
        rw [hStep, Option.bind_eq_bind, Option.bind_some, ih hRest hLimit]
        simp only [mul?, Nat.mul_assoc]
      · -- The whole product is no smaller than the refused one.
        have hStep : mul? start d = none := if_neg hLimit
        have hPos : 0 < dims.prod :=
          Nat.pos_of_ne_zero (List.prod_ne_zero hRest)
        have hWhole : start * d ≤ start * (d * dims.prod) := by
          rw [← Nat.mul_assoc]
          exact Nat.le_mul_of_pos_right _ hPos
        rw [hStep, Option.bind_eq_bind, Option.bind_none, mul?,
          if_neg (by omega)]

theorem product?_eq_mul?
    {dims : List Nat}
    (hDims : 0 ∉ dims) :
    product? dims = mul? 1 dims.prod :=
  foldlM_mul? hDims (by decide)

end Count

namespace VectorLayout

------------------------------------------------------------
-- The Only Bound
------------------------------------------------------------

/- The layout of a shape as it is, however many vectors it has. -/
def spread
    (shape : List Nat)
    (size : Nat) : VectorLayout :=
  { shape
    vectorSize := size
    rows := shape.dropLast.prod
    tiles := shape.getLastD 1 ⌈/⌉ size
    alignment := 1 }

/- The layout of a shape with rows for whole blocks. -/
def padded
    (shape : List Nat)
    (size : Nat) : VectorLayout :=
  { spread shape size with
    rows := (shape.dropLast.prod ⌈/⌉ size) * size
    alignment := size }

section Bound

variable {shape : List Nat} {size : Nat}

theorem tiles_spread_pos
    (hShape : IsShape shape)
    (hSize : 0 < size) :
    0 < (spread shape size).tiles := by
  rw [spread, ← Count.ceilDiv_eq _ hSize]
  exact Count.ceilDiv_pos hShape.getLastD_pos hSize

/- A layout with tiles has at least as many vectors as rows. -/
theorem rows_le_depth
    {l : VectorLayout}
    (hTiles : 0 < l.tiles) :
    l.rows ≤ l.depth :=
  Nat.le_mul_of_pos_right _ hTiles

/- The product of the outer dimensions needs no check of its own. -/
theorem ofVariable_eq_bounded
    (hShape : IsShape shape)
    (hSize : 0 < size) :
    ofVariable shape size = (spread shape size).bounded := by
  have hRows := rows_le_depth (tiles_spread_pos hShape hSize)
  unfold ofVariable
  rw [Count.product?_eq_mul? hShape.zero_notMem_dropLast, Count.mul?,
    Nat.one_mul]
  by_cases hProduct : shape.dropLast.prod < Count.limit
  · simp only [if_pos hProduct, if_neg (Nat.ne_of_gt hSize),
      Count.ceilDiv_eq _ hSize]
    rfl
  · have hLimit : Count.limit ≤ (spread shape size).depth :=
      Nat.le_trans (Nat.le_of_not_lt hProduct) hRows
    rw [if_neg hProduct, bounded_tooLarge_iff.mpr hLimit]

theorem rows_spread_le_padded
    (hSize : 0 < size) :
    (spread shape size).rows ≤ (padded shape size).rows :=
  Count.le_ceilDiv_mul _ hSize

/-
  Neither the layout without padding nor the padded rows need a
  check of their own: the padded layout has no fewer vectors.
-/
theorem ofConstant_eq_bounded
    (hRank : 2 ≤ shape.length)
    (hShape : IsShape shape)
    (hSize : 0 < size) :
    ofConstant shape size = (padded shape size).bounded := by
  have hTiles := tiles_spread_pos hShape hSize
  have hRows : (padded shape size).rows ≤ (padded shape size).depth :=
    rows_le_depth hTiles
  have hDepth : (spread shape size).depth ≤ (padded shape size).depth :=
    Nat.mul_le_mul_right _ (rows_spread_le_padded hSize)
  unfold ofConstant
  rw [ofVariable_eq_bounded hShape hSize]
  by_cases hSpread : (spread shape size).depth < Count.limit
  · have hChecked :
        Count.mul? (Count.ceilDiv (spread shape size).rows size) size =
          if (padded shape size).rows < Count.limit then
            some (padded shape size).rows
          else none := by
      rw [Count.ceilDiv_eq _ hSize]
      rfl
    rw [bounded_ok_iff.mpr ⟨hSpread, rfl⟩]
    simp only [if_neg (Nat.not_lt_of_le hRank), hChecked]
    by_cases hPadded : (padded shape size).rows < Count.limit
    · rw [if_pos hPadded]
      rfl
    · have hLimit : Count.limit ≤ (padded shape size).depth :=
        Nat.le_trans (Nat.le_of_not_lt hPadded) hRows
      rw [if_neg hPadded, bounded_tooLarge_iff.mpr hLimit]
  · have hLimit := Nat.le_of_not_lt hSpread
    rw [bounded_tooLarge_iff.mpr hLimit,
      bounded_tooLarge_iff.mpr (Nat.le_trans hLimit hDepth)]

end Bound

------------------------------------------------------------
-- The Vectors of a Layout
------------------------------------------------------------

section Vectors

variable {l : VectorLayout} {row tile : Nat}

/- The place of a row of a tile among the vectors of a layout. -/
def place
    (l : VectorLayout)
    (row tile : Nat) : Nat :=
  tile * l.stride + row

theorem place_div
    (hRow : row < l.rows) :
    l.place row tile / l.rows = tile := by
  have hPos : 0 < l.rows := Nat.zero_lt_of_lt hRow
  rw [place, stride, Nat.mul_comm, Nat.mul_add_div hPos,
    Nat.div_eq_of_lt hRow, Nat.add_zero]

theorem place_mod
    (hRow : row < l.rows) :
    l.place row tile % l.rows = row := by
  rw [place, stride, Nat.mul_comm, Nat.mul_add_mod, Nat.mod_eq_of_lt hRow]

theorem place_mod_div
    (l : VectorLayout)
    (a : Nat) :
    l.place (a % l.rows) (a / l.rows) = a :=
  Nat.div_add_mod' a l.rows

theorem place_lt_depth
    (hRow : row < l.rows)
    (hTile : tile < l.tiles) :
    l.place row tile < l.depth := by
  calc l.place row tile
    _ < tile * l.rows + l.rows := Nat.add_lt_add_left hRow _
    _ = (tile + 1) * l.rows := (Nat.succ_mul tile l.rows).symm
    _ ≤ l.tiles * l.rows := Nat.mul_le_mul_right l.rows hTile
    _ = l.depth := Nat.mul_comm l.tiles l.rows

theorem rows_pos_of_lt_depth
    {a : Nat}
    (hA : a < l.depth) :
    0 < l.rows :=
  Nat.pos_of_mul_pos_right (Nat.zero_lt_of_lt hA)

theorem div_rows_lt_tiles
    {a : Nat}
    (hA : a < l.depth) :
    a / l.rows < l.tiles :=
  Nat.div_lt_of_lt_mul hA

/- The rows of the tiles number the vectors, each of them once. -/
theorem bijOn_place (l : VectorLayout) :
    Set.BijOn (fun v : Nat × Nat => l.place v.1 v.2)
      (Set.Iio l.rows ×ˢ Set.Iio l.tiles) (Set.Iio l.depth) := by
  have hInverse :
      Set.InvOn (fun a => (a % l.rows, a / l.rows))
        (fun v : Nat × Nat => l.place v.1 v.2)
        (Set.Iio l.rows ×ˢ Set.Iio l.tiles) (Set.Iio l.depth) := by
    constructor
    · rintro ⟨row, tile⟩ ⟨hRow, -⟩
      exact Prod.ext (place_mod hRow) (place_div hRow)
    · intro a _
      exact place_mod_div l a
  refine hInverse.bijOn ?_ ?_
  · rintro ⟨row, tile⟩ ⟨hRow, hTile⟩
    exact place_lt_depth hRow hTile
  · intro a hA
    exact ⟨Nat.mod_lt a (rows_pos_of_lt_depth hA), div_rows_lt_tiles hA⟩

end Vectors

------------------------------------------------------------
-- Weight Blocks
------------------------------------------------------------

/- The vectors that a run of `vectorSize` rows has in a tile. -/
def block
    (l : VectorLayout)
    (i j : Nat) : Set Nat :=
  {a | ∃ row < l.rows, row / l.vectorSize = i ∧ l.place row j = a}

/-
  A layout falls into blocks, some rows of them in each tile. A
  block is a run of vectors that starts at a multiple of its size,
  wherever the layout is put that its alignment allows.
-/
structure Blocked
    (l : VectorLayout)
    (blocks : Nat) : Prop where
  run :
    ∀ {i j}, i < blocks → j < l.tiles →
      l.block i j =
        Set.Ico (j * l.stride + i * l.vectorSize)
          (j * l.stride + i * l.vectorSize + l.vectorSize)
  inside :
    ∀ {i j}, i < blocks → j < l.tiles →
      l.block i j ⊆ Set.Iio l.depth
  aligned :
    ∀ {base}, l.alignment ∣ base → ∀ i j,
      l.vectorSize ∣ base + (j * l.stride + i * l.vectorSize)
  partition :
    ∀ a < l.depth,
      ∃! b : Nat × Nat,
        b.1 < blocks ∧ b.2 < l.tiles ∧ a ∈ l.block b.1 b.2

section Blocks

variable {l : VectorLayout} {blocks i j : Nat}

theorem block_eq_Ico
    (hSize : 0 < l.vectorSize)
    (hRows : l.rows = blocks * l.vectorSize)
    (hBlock : i < blocks)
    (j : Nat) :
    l.block i j =
      Set.Ico (j * l.stride + i * l.vectorSize)
        (j * l.stride + i * l.vectorSize + l.vectorSize) := by
  have hEnd : i * l.vectorSize + l.vectorSize ≤ l.rows := by
    rw [hRows, ← Nat.succ_mul]
    exact Nat.mul_le_mul_right _ hBlock
  ext a
  constructor
  · rintro ⟨row, -, hRun, rfl⟩
    rw [Nat.div_eq_iff hSize] at hRun
    constructor <;> unfold place <;> omega
  · rintro ⟨hFirst, hLast⟩
    refine ⟨a - j * l.stride, by omega, ?_, ?_⟩
    · rw [Nat.div_eq_iff hSize]
      omega
    · unfold place
      omega

/- The block of a vector is known from its row and its tile. -/
theorem mem_block_iff
    {a : Nat}
    (hA : a < l.depth) :
    a ∈ l.block i j ↔
      i = a % l.rows / l.vectorSize ∧ j = a / l.rows := by
  constructor
  · rintro ⟨row, hRow, rfl, rfl⟩
    rw [place_mod hRow, place_div hRow]
    exact ⟨rfl, rfl⟩
  · rintro ⟨rfl, rfl⟩
    exact ⟨a % l.rows, Nat.mod_lt a (rows_pos_of_lt_depth hA), rfl,
      place_mod_div l a⟩

theorem blocked_of_rows
    (hSize : 0 < l.vectorSize)
    (hRows : l.rows = blocks * l.vectorSize)
    (hAlignment : l.alignment = l.vectorSize) :
    l.Blocked blocks where
  run := fun hBlock _ => block_eq_Ico hSize hRows hBlock _
  inside := by
    rintro i j - hTile a ⟨row, hRow, -, rfl⟩
    exact place_lt_depth hRow hTile
  aligned := by
    intro base hBase i j
    rw [hAlignment] at hBase
    have hStride : l.vectorSize ∣ l.stride := Dvd.intro_left blocks hRows.symm
    exact Nat.dvd_add hBase
      (Nat.dvd_add (Nat.dvd_mul_left_of_dvd hStride j)
        (Nat.dvd_mul_left l.vectorSize i))
  partition := by
    intro a hA
    have hRow : a % l.rows < blocks * l.vectorSize := by
      rw [← hRows]
      exact Nat.mod_lt a (rows_pos_of_lt_depth hA)
    refine ⟨(a % l.rows / l.vectorSize, a / l.rows), ?_, ?_⟩
    · exact ⟨(Nat.div_lt_iff_lt_mul hSize).mpr hRow, div_rows_lt_tiles hA,
        (mem_block_iff hA).mpr ⟨rfl, rfl⟩⟩
    · rintro ⟨i, j⟩ ⟨-, -, hMem⟩
      rcases (mem_block_iff hA).mp hMem with ⟨hI, hJ⟩
      exact Prod.ext hI hJ

end Blocks

------------------------------------------------------------
-- Exact Layouts
------------------------------------------------------------

/-
  A shape that takes some rows and tiles gets a layout exactly if
  their product is a count, and the layout has that many vectors.
  The vectors have room for all scalars, and each vector has one
  row and one tile.
-/
structure Exact
    (outcome : Except LayoutFault VectorLayout)
    (shape : List Nat)
    (size rows tiles : Nat) : Prop where
  accepted :
    (∃ l, outcome = .ok l) ↔ rows * tiles < Count.limit
  refused :
    outcome = .error .tooLarge ↔ Count.limit ≤ rows * tiles
  measured :
    ∀ {l}, outcome = .ok l →
      l.shape = shape ∧ l.vectorSize = size ∧
        l.rows = rows ∧ l.tiles = tiles ∧ l.depth = rows * tiles
  roomy :
    ∀ {l}, outcome = .ok l → shape.prod ≤ l.depth * size
  numbered :
    ∀ {l}, outcome = .ok l →
      Set.BijOn (fun v : Nat × Nat => v.2 * l.stride + v.1)
        (Set.Iio rows ×ˢ Set.Iio tiles) (Set.Iio l.depth)

/- The bound on the number of vectors makes a layout exact. -/
theorem exact_bounded
    {l : VectorLayout}
    (hScalars : l.shape.prod ≤ l.depth * l.vectorSize) :
    Exact l.bounded l.shape l.vectorSize l.rows l.tiles := by
  constructor
  case accepted =>
    constructor
    · rintro ⟨l', hOk⟩
      exact (bounded_ok_iff.mp hOk).1
    · intro hFits
      exact ⟨l, bounded_ok_iff.mpr ⟨hFits, rfl⟩⟩
  case refused => exact bounded_tooLarge_iff
  case measured =>
    intro l' hOk
    cases bounded_ok hOk
    exact ⟨rfl, rfl, rfl, rfl, rfl⟩
  case roomy =>
    intro l' hOk
    cases bounded_ok hOk
    exact hScalars
  case numbered =>
    intro l' hOk
    cases bounded_ok hOk
    exact bijOn_place l

section Shapes

variable {shape : List Nat} {size : Nat}

/- Enough rows and all tiles have a place for every scalar. -/
theorem prod_le_depth
    {l : VectorLayout}
    (hShape : IsShape shape)
    (hSize : 0 < size)
    (hRows : shape.dropLast.prod ≤ l.rows)
    (hTiles : l.tiles = shape.getLastD 1 ⌈/⌉ size) :
    shape.prod ≤ l.depth * size := by
  have hTile : shape.getLastD 1 ≤ l.tiles * size := by
    rw [hTiles]
    exact Count.le_ceilDiv_mul _ hSize
  calc shape.prod
    _ = (shape.dropLast ++ [shape.getLastD 1]).prod := by
        rw [hShape.dropLast_concat]
    _ = shape.dropLast.prod * shape.getLastD 1 := by
        rw [List.prod_append, List.prod_singleton]
    _ ≤ l.rows * (l.tiles * size) := Nat.mul_le_mul hRows hTile
    _ = l.depth * size := (Nat.mul_assoc _ _ _).symm

theorem exact_ofVariable
    (hShape : IsShape shape)
    (hSize : 0 < size) :
    Exact (ofVariable shape size) shape size shape.dropLast.prod
      (shape.getLastD 1 ⌈/⌉ size) := by
  rw [ofVariable_eq_bounded hShape hSize]
  exact exact_bounded (l := spread shape size)
    (prod_le_depth hShape hSize (Nat.le_refl _) rfl)

theorem exact_ofConstant
    (hRank : 2 ≤ shape.length)
    (hShape : IsShape shape)
    (hSize : 0 < size) :
    Exact (ofConstant shape size) shape size
      ((shape.dropLast.prod ⌈/⌉ size) * size)
      (shape.getLastD 1 ⌈/⌉ size) := by
  rw [ofConstant_eq_bounded hRank hShape hSize]
  exact exact_bounded (l := padded shape size)
    (prod_le_depth hShape hSize (rows_spread_le_padded hSize) rfl)

/-
  A shape has a layout exactly if its number of vectors is a count.
  The rows of a constant count as padded to whole blocks, and its
  layout is made of these blocks.
-/
theorem layouts_exact
    (hShape : IsShape shape)
    (hSize : 0 < size) :
    Exact (ofVariable shape size) shape size
        shape.dropLast.prod (shape.getLastD 1 ⌈/⌉ size) ∧
      Exact (ofConstant shape size) shape size
        (if 2 ≤ shape.length then
          (shape.dropLast.prod ⌈/⌉ size) * size
        else shape.dropLast.prod)
        (shape.getLastD 1 ⌈/⌉ size) ∧
      ∀ l, 2 ≤ shape.length → ofConstant shape size = .ok l →
        l.Blocked (shape.dropLast.prod ⌈/⌉ size) := by
  refine ⟨exact_ofVariable hShape hSize, ?_, ?_⟩
  · split
    case isTrue hRank => exact exact_ofConstant hRank hShape hSize
    case isFalse hRank =>
      rw [ofConstant_of_length_lt (Nat.lt_of_not_le hRank)]
      exact exact_ofVariable hShape hSize
  · intro l hRank hLayout
    rw [ofConstant_eq_bounded hRank hShape hSize] at hLayout
    cases bounded_ok hLayout
    exact blocked_of_rows hSize rfl rfl

/-
  The rows of a constant are padded from 15 to 16, two blocks in
  each of its tiles. A variable may have as many rows as a count
  can say, while padding takes a constant of its shape over that.
-/
theorem layouts_exact_collapsed :
    Exact (ofVariable [5, 3, 20] 8) [5, 3, 20] 8 15 3 ∧
      Exact (ofConstant [5, 3, 20] 8) [5, 3, 20] 8 16 3 ∧
      (∃ l, ofConstant [5, 3, 20] 8 = .ok l ∧
        l.depth = 48 ∧ l.Blocked 2) ∧
      (∃ l, ofVariable [Count.largest, 8] 8 = .ok l ∧
        l.depth = Count.largest) ∧
      ofConstant [Count.largest, 8] 8 = .error .tooLarge := by
  have hShape : IsShape [5, 3, 20] := by decide
  have hEdge : IsShape [Count.largest, 8] := by decide
  have hSize : 0 < 8 := by decide
  have hVariable : Exact (ofVariable [5, 3, 20] 8) [5, 3, 20] 8 15 3 :=
    (layouts_exact hShape hSize).1
  have hConstant : Exact (ofConstant [5, 3, 20] 8) [5, 3, 20] 8 16 3 :=
    (layouts_exact hShape hSize).2.1
  have hFits :
      Exact (ofVariable [Count.largest, 8] 8) [Count.largest, 8] 8
        Count.largest 1 :=
    (layouts_exact hEdge hSize).1
  have hPadded :
      Exact (ofConstant [Count.largest, 8] 8) [Count.largest, 8] 8
        Count.limit 1 :=
    (layouts_exact hEdge hSize).2.1
  refine ⟨hVariable, hConstant, ?_, ?_, hPadded.refused.mpr (by decide)⟩
  · rcases hConstant.accepted.mpr (by decide) with ⟨l, hLayout⟩
    rcases hConstant.measured hLayout with ⟨-, -, -, -, hDepth⟩
    exact ⟨l, hLayout, hDepth,
      (layouts_exact hShape hSize).2.2 l (by decide) hLayout⟩
  · rcases hFits.accepted.mpr (by decide) with ⟨l, hLayout⟩
    rcases hFits.measured hLayout with ⟨-, -, -, -, hDepth⟩
    exact ⟨l, hLayout, hDepth⟩

end Shapes

end VectorLayout

end Systolic
