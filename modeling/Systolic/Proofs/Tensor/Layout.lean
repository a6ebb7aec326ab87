import Mathlib.Data.List.Basic
import Systolic.Tensor.VectorLayout

/-
  This file describes the layouts of variables and of constants.

  Key definitions include:
    * `IsShape`

  Key theorems include:
    * `VectorLayout.bounded_ok_iff`
    * `VectorLayout.ofVariable_ok`
    * `VectorLayout.ofConstant_ok`
    * `VectorLayout.ofConstant_matrix`
    * `VectorLayout.ofVariable_product`
-/

namespace Systolic

variable {shape : List Nat}

/- A shape of a tensor: at least one dimension, and none empty. -/
def IsShape (shape : List Nat) : Prop :=
  shape ≠ [] ∧ 0 ∉ shape

instance
    (shape : List Nat) :
    Decidable (IsShape shape) := by
  unfold IsShape
  infer_instance

/- The outer dimensions of a shape and the innermost one. -/
theorem IsShape.dropLast_concat
    (hShape : IsShape shape) :
    shape.dropLast ++ [shape.getLastD 1] = shape := by
  rw [List.getLastD_eq_getLast?,
    List.getLast?_eq_some_getLast hShape.1, Option.getD_some,
    List.dropLast_concat_getLast]

theorem IsShape.zero_notMem_dropLast
    (hShape : IsShape shape) :
    0 ∉ shape.dropLast :=
  fun h => hShape.2 (List.dropLast_subset _ h)

/- The shape of a product of an input with a matrix. -/
theorem IsShape.product
    {k columns : Nat}
    (hShape : IsShape shape)
    (hMatrix : IsShape [k, columns]) :
    IsShape (shape.dropLast ++ [columns]) := by
  refine ⟨by simp, ?_⟩
  intro hZero
  rcases List.mem_append.mp hZero with hZero | hZero
  · exact hShape.zero_notMem_dropLast hZero
  · exact hMatrix.2 (List.mem_cons_of_mem _ hZero)

theorem IsShape.getLastD_pos
    (hShape : IsShape shape) :
    0 < shape.getLastD 1 := by
  have hMem : shape.getLastD 1 ∈ shape.dropLast ++ [shape.getLastD 1] :=
    List.mem_append_right _ (List.mem_singleton_self _)
  rw [hShape.dropLast_concat] at hMem
  exact Nat.pos_of_ne_zero (fun h => hShape.2 (h ▸ hMem))

------------------------------------------------------------
-- Counts
------------------------------------------------------------

namespace Count

theorem ceilDiv_pos
    {a b : Nat}
    (hA : 0 < a)
    (hB : 0 < b) :
    0 < ceilDiv a b :=
  Nat.div_pos (by omega) hB

/- A product of positive counts is positive. -/
theorem foldlM_mul?_pos
    {dims : List Nat}
    {start product : Nat}
    (hDims : 0 ∉ dims)
    (hStart : 0 < start)
    (hProduct : dims.foldlM mul? start = some product) :
    0 < product := by
  induction dims generalizing start with
  | nil =>
      cases hProduct
      exact hStart
  | cons d dims ih =>
      have hD : 0 < d :=
        Nat.pos_of_ne_zero (fun h => hDims (by simp [h]))
      have hRest : 0 ∉ dims :=
        fun h => hDims (List.mem_cons_of_mem _ h)
      rw [List.foldlM_cons] at hProduct
      by_cases hLimit : start * d < limit
      · simp only [mul?, hLimit, if_true] at hProduct
        exact ih hRest (Nat.mul_pos hStart hD) hProduct
      · simp [mul?, hLimit] at hProduct

theorem product?_pos
    {dims : List Nat}
    {product : Nat}
    (hDims : 0 ∉ dims)
    (hProduct : product? dims = some product) :
    0 < product :=
  foldlM_mul?_pos hDims (by decide) hProduct

end Count

namespace VectorLayout

variable {size columns : Nat} {l : VectorLayout}

------------------------------------------------------------
-- Variables
------------------------------------------------------------

theorem bounded_ok_iff
    {l l' : VectorLayout} :
    l.bounded = .ok l' ↔ l.depth < Count.limit ∧ l' = l := by
  unfold bounded
  split
  case isTrue hFits =>
    rw [Except.ok.injEq, eq_comm]
    exact ⟨fun hSame => ⟨hFits, hSame⟩, And.right⟩
  case isFalse hLarge =>
    constructor
    · intro hOk
      cases hOk
    · rintro ⟨hFits, -⟩
      exact absurd hFits hLarge

theorem bounded_tooLarge_iff
    {l : VectorLayout} :
    l.bounded = .error .tooLarge ↔ Count.limit ≤ l.depth := by
  unfold bounded
  split
  case isTrue hFits =>
    constructor
    · intro hError
      cases hError
    · intro hLarge
      exact absurd hFits (Nat.not_lt_of_le hLarge)
  case isFalse hLarge =>
    exact ⟨fun _ => Nat.le_of_not_lt hLarge, fun _ => rfl⟩

theorem bounded_ok
    {l' : VectorLayout}
    (hBounded : l.bounded = .ok l') :
    l' = l :=
  (bounded_ok_iff.mp hBounded).2

/- What is known of the layout of a variable. -/
theorem ofVariable_ok
    (hLayout : ofVariable shape size = .ok l) :
    l.shape = shape ∧ l.vectorSize = size ∧
      Count.product? shape.dropLast = some l.rows ∧
      l.tiles = Count.ceilDiv (shape.getLastD 1) size := by
  unfold ofVariable at hLayout
  split at hLayout
  case h_1 => cases hLayout
  case h_2 rows hRows =>
    split at hLayout
    case isTrue => cases hLayout
    case isFalse =>
      cases bounded_ok hLayout
      exact ⟨rfl, rfl, hRows, rfl⟩

/- A variable may start anywhere, and its vectors can be counted. -/
theorem ofVariable_counted
    (hLayout : ofVariable shape size = .ok l) :
    l.alignment = 1 ∧ l.depth < Count.limit := by
  unfold ofVariable at hLayout
  split at hLayout
  case h_1 => cases hLayout
  case h_2 rows hRows =>
    split at hLayout
    case isTrue => cases hLayout
    case isFalse =>
      rcases bounded_ok_iff.mp hLayout with ⟨hFits, rfl⟩
      exact ⟨rfl, hFits⟩

/-
  A layout with vectors that can be counted, and with an
  alignment of no more than its rows.
-/
structure Proper (l : VectorLayout) : Prop where
  rows_pos : 0 < l.rows
  tiles_pos : 0 < l.tiles
  alignment_le : l.alignment ≤ l.rows
  depth_lt : l.depth < Count.limit

theorem Proper.alignment_lt
    (hProper : l.Proper) :
    l.alignment < Count.limit := by
  calc
    l.alignment ≤ l.rows := hProper.alignment_le
    _ ≤ l.depth := Nat.le_mul_of_pos_right _ hProper.tiles_pos
    _ < Count.limit := hProper.depth_lt

theorem ofVariable_proper
    (hSize : 0 < size)
    (hShape : IsShape shape)
    (hLayout : ofVariable shape size = .ok l) :
    l.Proper := by
  rcases ofVariable_ok hLayout with ⟨-, -, hRows, hTiles⟩
  rcases ofVariable_counted hLayout with ⟨hOne, hFits⟩
  have hPos := Count.product?_pos hShape.zero_notMem_dropLast hRows
  constructor
  case rows_pos => exact hPos
  case tiles_pos =>
    exact hTiles ▸ Count.ceilDiv_pos hShape.getLastD_pos hSize
  case alignment_le => exact hOne ▸ hPos
  case depth_lt => exact hFits

/- A variable of a positive vector size has a layout or is too large. -/
theorem ofVariable_error
    {fault : LayoutFault}
    (hSize : 0 < size)
    (hLayout : ofVariable shape size = .error fault) :
    fault = .tooLarge := by
  unfold ofVariable at hLayout
  split at hLayout
  case h_1 =>
    cases hLayout
    rfl
  case h_2 =>
    rw [if_neg (by omega)] at hLayout
    unfold bounded at hLayout
    split at hLayout
    · cases hLayout
    · cases hLayout
      rfl

------------------------------------------------------------
-- Constants
------------------------------------------------------------

/- A constant of one dimension is laid out as a variable. -/
theorem ofConstant_of_length_lt
    (hRank : shape.length < 2)
    (size : Nat) :
    ofConstant shape size = ofVariable shape size := by
  unfold ofConstant
  cases ofVariable shape size with
  | error e => rfl
  | ok l => simp [hRank]

/- What is known of the layout of a constant. -/
theorem ofConstant_ok
    (hSize : 0 < size)
    (hShape : IsShape shape)
    (hLayout : ofConstant shape size = .ok l) :
    l.shape = shape ∧ l.vectorSize = size ∧ l.Proper := by
  unfold ofConstant at hLayout
  split at hLayout
  case h_1 => cases hLayout
  case h_2 v hVariable =>
    have hProper := ofVariable_proper hSize hShape hVariable
    rcases ofVariable_ok hVariable with ⟨hS, hV, -, -⟩
    split at hLayout
    case isTrue =>
      cases hLayout
      exact ⟨hS, hV, hProper⟩
    case isFalse =>
      split at hLayout
      case h_1 => cases hLayout
      case h_2 rows hRows =>
        rcases bounded_ok_iff.mp hLayout with ⟨hFits, rfl⟩
        have hPadded :
            rows = Count.ceilDiv v.rows size * size := by
          unfold Count.mul? at hRows
          split at hRows <;> cases hRows
          rfl
        have hBlocks := Count.ceilDiv_pos hProper.rows_pos hSize
        refine ⟨hS, hV, ?_, hProper.tiles_pos, ?_, hFits⟩
        · rw [hPadded]
          exact Nat.mul_pos hBlocks hSize
        · rw [hPadded]
          exact Nat.le_mul_of_pos_left _ hBlocks

/- The rows of a weight matrix are padded to whole blocks. -/
theorem ofConstant_matrix
    {k : Nat}
    (hLayout : ofConstant [k, columns] size = .ok l) :
    l.rows = Count.ceilDiv k size * size ∧
      l.tiles = Count.ceilDiv columns size := by
  unfold ofConstant at hLayout
  split at hLayout
  case h_1 => cases hLayout
  case h_2 v hVariable =>
    rcases ofVariable_ok hVariable with ⟨-, -, hRows, hTiles⟩
    have hK : v.rows = k := by
      simp only [Count.product?, Count.mul?, List.dropLast,
        List.foldlM_cons, List.foldlM_nil, Nat.one_mul] at hRows
      split at hRows <;> cases hRows
      rfl
    simp only [List.length_cons, List.length_nil, Nat.lt_irrefl,
      Nat.zero_add, Nat.reduceAdd, if_false, hK] at hLayout
    split at hLayout
    case h_1 => cases hLayout
    case h_2 rows hPadded =>
      cases bounded_ok hLayout
      unfold Count.mul? at hPadded
      split at hPadded <;> cases hPadded
      exact ⟨rfl, hTiles⟩

/- A constant of a positive vector size has a layout or is too large. -/
theorem ofConstant_error
    {fault : LayoutFault}
    (hSize : 0 < size)
    (hLayout : ofConstant shape size = .error fault) :
    fault = .tooLarge := by
  unfold ofConstant at hLayout
  split at hLayout
  case h_1 e hVariable =>
    cases hLayout
    exact ofVariable_error hSize hVariable
  case h_2 =>
    split at hLayout
    case isTrue => cases hLayout
    case isFalse =>
      split at hLayout
      case h_1 =>
        cases hLayout
        rfl
      case h_2 =>
        unfold bounded at hLayout
        split at hLayout
        · cases hLayout
        · cases hLayout
          rfl

------------------------------------------------------------
-- Products
------------------------------------------------------------

/- The layout of a product has the rows of its input. -/
theorem ofVariable_product
    {xs : List Nat}
    {k : Nat}
    {x w o : VectorLayout}
    (hInner : xs.getLast? = some k)
    (hX : ofVariable xs size = .ok x)
    (hW : ofConstant [k, columns] size = .ok w)
    (hO : ofVariable (xs.dropLast ++ [columns]) size = .ok o) :
    o.rows = x.rows ∧ o.tiles = w.tiles ∧ w.rows = x.tiles * size := by
  rcases ofVariable_ok hX with ⟨-, -, hRows, hTiles⟩
  rcases ofVariable_ok hO with ⟨-, -, hRows', hTiles'⟩
  rcases ofConstant_matrix hW with ⟨hPadded, hColumns⟩
  rw [List.dropLast_concat, hRows] at hRows'
  rw [List.getLastD_concat] at hTiles'
  rw [List.getLastD_eq_getLast?, hInner, Option.getD_some] at hTiles
  refine ⟨(Option.some.inj hRows').symm, ?_, ?_⟩
  · rw [hTiles', hColumns]
  · rw [hPadded, hTiles]

/- The layout of a bias has a vector for each tile of the product. -/
theorem depth_ofVariable_vector
    (hLayout : ofVariable [columns] size = .ok l) :
    l.depth = Count.ceilDiv columns size := by
  rcases ofVariable_ok hLayout with ⟨-, -, hRows, hTiles⟩
  have hOne : l.rows = 1 := (Option.some.inj hRows).symm
  rw [depth, hOne, hTiles, Nat.one_mul]
  rfl

end VectorLayout

end Systolic
