/-
  This file defines sorting by insertion. Elements that neither
  come before the other keep their order.

  Key definitions include:
    * `insertSorted`
    * `sortBy`
-/

namespace Systolic

variable {α : Type}

/- Put an element before the first one that it may precede. -/
def insertSorted
    (precedes : α → α → Bool)
    (a : α) : List α → List α
| [] => [a]
| b :: bs =>
    if precedes a b then a :: b :: bs
    else b :: insertSorted precedes a bs

/- Sort a list, where `precedes` allows equal elements. -/
def sortBy
    (precedes : α → α → Bool) : List α → List α
| [] => []
| a :: as => insertSorted precedes a (sortBy precedes as)

end Systolic
