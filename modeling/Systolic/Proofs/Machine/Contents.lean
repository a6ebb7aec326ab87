import Mathlib.Data.List.Basic
import Systolic.Machine.Fault

/-
  This file defines what the memories of a machine hold: a vector
  at each address of the scratchpad, the accumulator memory and
  the two DRAM banks. Runs of vectors are read and overwritten.

  Key definitions include:
    * `Span`
    * `Contents`
    * `Contents.read`
    * `Contents.write`

  Key theorems include:
    * `Contents.read_write`
    * `Contents.read_write_of_apart`
-/

namespace Systolic

variable {α : Type}

------------------------------------------------------------
-- Spans
------------------------------------------------------------

/- The `length` vectors from `start` on in one of the memories. -/
structure Span where
  store : Store
  start : Nat
  length : Nat
deriving DecidableEq, Repr

/- Two spans have no address in common. -/
def Span.Apart
    (p q : Span) : Prop :=
  p.store = q.store →
    p.start + p.length ≤ q.start ∨ q.start + q.length ≤ p.start

theorem Span.Apart.of_store_ne
    {p q : Span}
    (hStore : p.store ≠ q.store) :
    p.Apart q :=
  fun hSame => absurd hSame hStore

/- One span lies inside another. -/
def Span.Inside
    (p q : Span) : Prop :=
  p.store = q.store ∧ q.start ≤ p.start ∧
    p.start + p.length ≤ q.start + q.length

theorem Span.Inside.refl (p : Span) : p.Inside p :=
  ⟨rfl, Nat.le_refl _, Nat.le_refl _⟩

------------------------------------------------------------
-- Contents
------------------------------------------------------------

/- The vector at each address of each memory. -/
def Contents (α : Type) :=
  Store → Nat → α

namespace Contents

/- The vectors of a span. -/
def read
    (m : Contents α)
    (p : Span) : List α :=
  (List.range p.length).map (fun i => m p.store (p.start + i))

/- The memories after a span was overwritten. -/
def write
    (m : Contents α)
    (p : Span)
    (xs : List α) : Contents α := fun store address =>
  if store = p.store ∧ p.start ≤ address ∧ address < p.start + p.length then
    xs.getD (address - p.start) (m store address)
  else m store address

@[simp] theorem length_read
    (m : Contents α)
    (p : Span) :
    (m.read p).length = p.length := by
  simp [read]

/- What was written is read. -/
theorem read_write
    {p : Span}
    {xs : List α}
    (m : Contents α)
    (hLength : xs.length = p.length) :
    (m.write p xs).read p = xs := by
  apply List.ext_getElem
  · rw [length_read, hLength]
  · intro i hLeft hRight
    have hInside : i < p.length := by omega
    simp [read, write, hInside, hRight]

/- A write leaves what lies apart from it. -/
theorem read_write_of_apart
    {p q : Span}
    (m : Contents α)
    (hApart : p.Apart q)
    (xs : List α) :
    (m.write p xs).read q = m.read q := by
  apply List.map_congr_left
  intro i hI
  have hInside : i < q.length := List.mem_range.mp hI
  unfold write
  rw [if_neg]
  intro hMeets
  rcases hMeets with ⟨hStore, hFrom, hTo⟩
  rcases hApart hStore.symm with hBefore | hAfter
  · omega
  · omega

end Contents

end Systolic
