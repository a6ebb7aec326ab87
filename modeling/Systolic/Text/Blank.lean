/-
  This file defines blank characters, which are those with the
  Unicode property White_Space, and the removal of blanks at
  the ends of a text.

  Key definitions include:
    * `isBlank`
    * `skipBlanks`
    * `trimBlanks`
-/

namespace Systolic

------------------------------------------------------------
-- Blank Characters
------------------------------------------------------------

/- The ranges of code points with the White_Space property. -/
def blankRanges : List (Nat × Nat) :=
  [ (0x0009, 0x000D), (0x0020, 0x0020), (0x0085, 0x0085),
    (0x00A0, 0x00A0), (0x1680, 0x1680), (0x2000, 0x200A),
    (0x2028, 0x2029), (0x202F, 0x202F), (0x205F, 0x205F),
    (0x3000, 0x3000) ]

/- A character is blank when it lies in one of the ranges. -/
def isBlank (c : Char) : Bool :=
  blankRanges.any (fun (lo, hi) => lo ≤ c.toNat && c.toNat ≤ hi)

------------------------------------------------------------
-- Trimming
------------------------------------------------------------

/- Drop the blanks at the front. -/
def skipBlanks (cs : List Char) : List Char :=
  cs.dropWhile isBlank

/- Drop the blanks at both ends. -/
def trimBlanks (cs : List Char) : List Char :=
  (skipBlanks (skipBlanks cs).reverse).reverse

end Systolic
