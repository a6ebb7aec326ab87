/-
  This file defines arithmetic on counts. A count of vectors,
  cycles or bits is a natural number below `Count.limit`.
  Layouts refuse a product that leaves this range, and cycle
  estimates stop at the largest count. The width of a vector is
  a product that keeps what a count can hold.

  Key definitions include:
    * `Count.limit`
    * `Count.mulWrap`
    * `Count.mulSat`
    * `Count.ceilDiv`
    * `Count.roundUp`
-/

namespace Systolic

namespace Count

/- Powers are those of the natural numbers themselves. -/
attribute [local instance (high)] instPowNat

------------------------------------------------------------
-- The Range of Counts
------------------------------------------------------------

/- Every count is below this bound. -/
def limit : Nat :=
  2 ^ (64 : Nat)

/- The largest count. -/
def largest : Nat :=
  limit - 1

/- The product of two counts, if it is a count again. -/
def mul?
    (a b : Nat) : Option Nat :=
  if a * b < limit then some (a * b) else none

/- The product of two counts without what exceeds a count. -/
def mulWrap
    (a b : Nat) : Nat :=
  a * b % limit

/-
  The product of a list of counts, multiplied from the left,
  if every partial product is a count.
-/
def product? (dims : List Nat) : Option Nat :=
  dims.foldlM mul? 1

/- A sum that stops at the largest count. -/
def addSat
    (a b : Nat) : Nat :=
  min (a + b) largest

/- A product that stops at the largest count. -/
def mulSat
    (a b : Nat) : Nat :=
  min (a * b) largest

------------------------------------------------------------
-- Rounding Up
------------------------------------------------------------

/- The least `q` with `a ≤ q * b`, for a positive `b`. -/
def ceilDiv
    (a b : Nat) : Nat :=
  (a + (b - 1)) / b

/- The least multiple of a positive `b` that is at least `a`. -/
def roundUp
    (a b : Nat) : Nat :=
  ceilDiv a b * b

end Count

end Systolic
