/-
  This file defines the rounding of exact quotients to 53
  significant bits and to whole numbers, both to the nearest
  value with ties to the even one, and the percentages that
  reports print.

  A percentage is computed in three steps that each round to
  53 bits: the part and the whole, their part times one
  hundred, and the quotient. The result is then printed with
  one decimal.

  Key definitions include:
    * `divRoundEven`
    * `Fraction`
    * `Fraction.round53`
    * `percentTenths`
    * `percentText`
-/

namespace Systolic

------------------------------------------------------------
-- Rounding to the Nearest Whole Number
------------------------------------------------------------

/-
  The whole number nearest to `num / den`, where a tie goes to
  the even neighbour.
-/
def divRoundEven
    (num den : Nat) : Nat :=
  let q := num / den
  let r := num % den
  if 2 * r < den then q
  else if den < 2 * r then q + 1
  else if q % 2 = 0 then q
  else q + 1

------------------------------------------------------------
-- Rounding to 53 Significant Bits
------------------------------------------------------------

/- An exact quotient of two natural numbers. -/
structure Fraction where
  num : Nat
  den : Nat
deriving DecidableEq, Repr

namespace Fraction

/- Powers are those of the natural numbers themselves. -/
attribute [local instance (high)] instPowNat

/- Multiply by a power of two given by a signed exponent. -/
def scale
    (f : Fraction)
    (e : Int) : Fraction :=
  if 0 ≤ e then
    { f with num := f.num * 2 ^ e.toNat }
  else
    { f with den := f.den * 2 ^ (-e).toNat }

/-
  The exponent that scales a positive quotient into the range
  from `2 ^ 52` to `2 ^ 53`.
-/
def exponent53 (f : Fraction) : Int :=
  let e : Int := 52 - ((Nat.log2 f.num : Int) - (Nat.log2 f.den : Int))
  let g := f.scale e
  if g.num < g.den * 2 ^ (52 : Nat) then e + 1 else e

/- The nearest quotient with 53 significant bits. -/
def round53 (f : Fraction) : Fraction :=
  if f.num = 0 then { num := 0, den := 1 }
  else
    let e := f.exponent53
    let g := f.scale e
    { num := divRoundEven g.num g.den, den := 1 : Fraction }.scale (-e)

end Fraction

/- A natural number as a quotient of 53 significant bits. -/
def nat53 (n : Nat) : Fraction :=
  { num := n, den := 1 : Fraction }.round53

------------------------------------------------------------
-- Percentages
------------------------------------------------------------

/- Tenths of a percent of `part` in `whole`; none of nothing. -/
def percentTenths
    (part whole : Nat) : Nat :=
  if whole = 0 then 0
  else
    let p := nat53 part
    let w := nat53 whole
    let scaled := { num := p.num * 100, den := p.den : Fraction }.round53
    let ratio := { num := scaled.num * w.den, den := scaled.den * w.num : Fraction }.round53
    divRoundEven (ratio.num * 10) ratio.den

/- A percentage with one decimal. -/
def percentText
    (part whole : Nat) : String :=
  let tenths := percentTenths part whole
  toString (tenths / 10) ++ "." ++ toString (tenths % 10)

end Systolic
