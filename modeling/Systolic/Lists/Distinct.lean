/-
  This file defines the removal of repetitions from a list. The
  first of equal elements stays.

  Key definitions include:
    * `distinct`
    * `mem_distinct`
-/

namespace Systolic

variable {α : Type} [DecidableEq α]

/- The elements of a list, each at its first place only. -/
def distinct : List α → List α
| [] => []
| a :: as => a :: (distinct as).filter (fun b => b ≠ a)

/- Removing repetitions keeps the elements. -/
theorem mem_distinct
    {a : α}
    {as : List α} :
    a ∈ distinct as ↔ a ∈ as := by
  induction as with
  | nil => simp [distinct]
  | cons b bs ih =>
      by_cases h : a = b
      · simp [distinct, h]
      · simp [distinct, h, ih]

theorem nodup_distinct (as : List α) : (distinct as).Nodup := by
  induction as with
  | nil => exact List.nodup_nil
  | cons a as ih =>
      refine List.nodup_cons.mpr ⟨by simp, ?_⟩
      exact ih.sublist List.filter_sublist

end Systolic
