import Systolic.Arith.Count

/-
  This file defines how a tensor lies in a memory of vectors.
  The innermost dimension is cut into tiles of one vector, and
  all outer dimensions together are the rows. Vectors are laid
  out tile after tile, so the rows of one tile are contiguous.

  A variable is laid out as it is. A constant of two or more
  dimensions is a weight matrix: its rows are padded to a
  multiple of the vector size, and it starts at such a multiple,
  so that every square weight block is a run of vectors.

  Key definitions include:
    * `VectorLayout`
    * `VectorLayout.depth`
    * `VectorLayout.stride`
    * `LayoutFault`
    * `VectorLayout.ofVariable`
    * `VectorLayout.ofConstant`
    * `VectorLayout.IsVariable`
-/

namespace Systolic

/- The place of a tensor of a given shape. -/
structure VectorLayout where
  shape : List Nat
  vectorSize : Nat
  rows : Nat
  tiles : Nat
  alignment : Nat
deriving DecidableEq, Repr

/- Why a shape has no layout. -/
inductive LayoutFault where
| tooLarge
| emptyVector
deriving DecidableEq, Repr

namespace VectorLayout

/- The number of vectors. -/
def depth (l : VectorLayout) : Nat :=
  l.rows * l.tiles

/- The distance between the starts of neighbouring tiles. -/
def stride (l : VectorLayout) : Nat :=
  l.rows

/- A layout whose number of vectors is a count. -/
def bounded (l : VectorLayout) : Except LayoutFault VectorLayout :=
  if l.depth < Count.limit then .ok l else .error .tooLarge

/- The layout of a variable. -/
def ofVariable
    (shape : List Nat)
    (vectorSize : Nat) : Except LayoutFault VectorLayout :=
  match Count.product? shape.dropLast with
  | none => .error .tooLarge
  | some rows =>
      if vectorSize = 0 then .error .emptyVector
      else
        bounded
          { shape, vectorSize, rows
            tiles := Count.ceilDiv (shape.getLastD 1) vectorSize
            alignment := 1 }

/- The layout of a constant. -/
def ofConstant
    (shape : List Nat)
    (vectorSize : Nat) : Except LayoutFault VectorLayout :=
  match ofVariable shape vectorSize with
  | .error e => .error e
  | .ok l =>
      if shape.length < 2 then .ok l
      else
        match Count.mul? (Count.ceilDiv l.rows vectorSize) vectorSize with
        | none => .error .tooLarge
        | some rows => bounded { l with rows, alignment := vectorSize }

/- A layout is the one that a variable of its shape has. -/
def IsVariable (l : VectorLayout) : Prop :=
  ofVariable l.shape l.vectorSize = .ok l

instance (l : VectorLayout) : Decidable l.IsVariable :=
  match h : ofVariable l.shape l.vectorSize with
  | .error _ =>
      isFalse (fun hEq => by
        unfold IsVariable at hEq
        rw [h] at hEq
        cases hEq)
  | .ok v =>
      if hv : v = l then
        isTrue (by
          unfold IsVariable
          rw [h, hv])
      else
        isFalse (fun hEq => by
          unfold IsVariable at hEq
          rw [h] at hEq
          exact hv (Except.ok.inj hEq))

end VectorLayout

end Systolic
