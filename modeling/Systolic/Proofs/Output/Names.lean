import Mathlib.Data.List.Nodup
import Mathlib.Data.List.Perm.Subperm
import Systolic.Output.Header
import Systolic.Proofs.Text.Words

/-
  This file proves that the tensors of a header have different
  names. A name that is taken is tried again with a number behind
  it. No two tries are the same, so one more try than there are
  names taken gives a new name.

  Key definitions include:
    * `candidate`
    * `hostBase`
    * `Assigns`

  Key theorems include:
    * `freshName_spec`
    * `nodup_hostNames`
    * `hostNames_spec`
    * `assigns_hostNames`
-/

namespace Systolic

------------------------------------------------------------
-- Fresh Names
------------------------------------------------------------

/- The names that are tried for a base, one after the other. -/
def candidate
    (base : String) : Nat → String
| 0 => base
| k + 1 => s!"{base}_{k + 2}"

theorem exists_candidate_eq_append
    (base : String)
    (k : Nat) :
    ∃ number, IsWord number.toList ∧ candidate base k = base ++ number := by
  cases k with
  | zero => exact ⟨"", by decide, String.append_empty.symm⟩
  | succ k =>
      refine ⟨"_" ++ toString (k + 2), ?_, String.append_assoc⟩
      rw [String.toList_append, isWord_append]
      exact ⟨by decide, isWord_toString (k + 2)⟩

/- No name is tried twice. -/
theorem candidate_injective (base : String) :
    Function.Injective (candidate base) := by
  have hLonger : ∀ k, candidate base (k + 1) ≠ base := by
    intro k hSame
    have hLength := congrArg (fun s => s.toList.length) hSame
    simp [candidate, toString] at hLength
  intro j k hSame
  cases j with
  | zero =>
      cases k with
      | zero => rfl
      | succ k => exact absurd hSame.symm (hLonger k)
  | succ j =>
      cases k with
      | zero => exact absurd hSame (hLonger j)
      | succ k =>
          have hNumbers : Nat.repr (j + 2) = Nat.repr (k + 2) := by
            simpa [candidate, toString, String.append_right_inj] using hSame
          have hEqual := decimal_injective hNumbers
          omega

/- The name that is taken is the first one that is new. -/
theorem freshName_spec
    (taken : List String)
    (base : String) :
    ∃ k ≤ taken.length,
      freshName taken base = candidate base k ∧
        candidate base k ∉ taken ∧ ∀ j < k, candidate base j ∈ taken := by
  have hTried :
      base :: (List.range taken.length).map (fun i => s!"{base}_{i + 2}") =
        (List.range (taken.length + 1)).map (candidate base) := by
    rw [List.range_succ_eq_map, List.map_cons, List.map_map]
    rfl
  have hNodup :
      ((List.range (taken.length + 1)).map (candidate base)).Nodup :=
    List.nodup_range.map (candidate_injective base)
  -- There is one more name than are taken, so one of them is new.
  have hNew :
      ∃ name ∈ (List.range (taken.length + 1)).map (candidate base),
        name ∉ taken := by
    by_contra hNone
    have hSubset :
        (List.range (taken.length + 1)).map (candidate base) ⊆ taken := by
      intro name hMem
      by_contra hFree
      exact hNone ⟨name, hMem, hFree⟩
    have hLength := (hNodup.subperm hSubset).length_le
    rw [List.length_map, List.length_range] at hLength
    omega
  rcases hNew with ⟨name, hMem, hFree⟩
  unfold freshName
  dsimp only
  rw [hTried]
  cases hFind :
      ((List.range (taken.length + 1)).map (candidate base)).find?
        (fun name => name ∉ taken) with
  | none =>
      have hTaken := List.find?_eq_none.mp hFind name hMem
      exact absurd (decide_eq_true hFree) hTaken
  | some found =>
      rcases List.find?_eq_some_iff_getElem.mp hFind with
        ⟨hFound, k, hBound, hGet, hEarlier⟩
      rw [List.length_map, List.length_range] at hBound
      rw [List.getElem_map, List.getElem_range] at hGet
      refine ⟨k, Nat.le_of_lt_succ hBound, hGet.symm, ?_, ?_⟩
      · rw [hGet]
        exact of_decide_eq_true hFound
      · intro j hJ
        have hTaken := hEarlier j hJ
        rw [List.getElem_map, List.getElem_range] at hTaken
        simpa using hTaken

/- The macro name of a tensor, if no other tensor has it. -/
def hostBase (t : HostTensor) : String :=
  "TCU_" ++ t.kind.tag ++ "_" ++ identifier t.name

section HostNames

variable {taken : List String} {host : List HostTensor}

theorem length_hostNames :
    (hostNames taken host).length = host.length := by
  induction host generalizing taken with
  | nil => rfl
  | cons t host ih => simp [hostNames, ih]

/- Names of tensors are new. -/
theorem not_mem_of_mem_hostNames
    {name : String}
    (hMem : name ∈ hostNames taken host) :
    name ∉ taken := by
  induction host generalizing taken with
  | nil => cases hMem
  | cons t host ih =>
      rcases List.mem_cons.mp hMem with rfl | hLater
      · rcases freshName_spec taken (hostBase t) with ⟨k, -, hName, hNew, -⟩
        change freshName taken (hostBase t) ∉ taken
        rw [hName]
        exact hNew
      · intro hTaken
        exact ih hLater (List.mem_cons_of_mem _ hTaken)

theorem exists_candidate_of_mem_hostNames
    {name : String}
    (hMem : name ∈ hostNames taken host) :
    ∃ t ∈ host, ∃ k, name = candidate (hostBase t) k := by
  induction host generalizing taken with
  | nil => cases hMem
  | cons t host ih =>
      rcases List.mem_cons.mp hMem with rfl | hLater
      · rcases freshName_spec taken (hostBase t) with ⟨k, -, hName, -⟩
        exact ⟨t, List.mem_cons_self, k, hName⟩
      · rcases ih hLater with ⟨s, hHost, k, hName⟩
        exact ⟨s, List.mem_cons_of_mem t hHost, k, hName⟩

theorem nodup_hostNames :
    (hostNames taken host).Nodup := by
  induction host generalizing taken with
  | nil => exact List.nodup_nil
  | cons t host ih =>
      refine List.nodup_cons.mpr ⟨?_, ih⟩
      intro hMem
      exact not_mem_of_mem_hostNames hMem List.mem_cons_self

/-
  The name of each tensor is the first one of its base that is
  neither taken at the start nor by a tensor before it.
-/
theorem hostNames_spec
    {i : Nat}
    {t : HostTensor}
    (hGet : host[i]? = some t) :
    ∃ k ≤ taken.length + i,
      (hostNames taken host)[i]? = some (candidate (hostBase t) k) ∧
        ∀ j < k, candidate (hostBase t) j ∈ taken ∨
          candidate (hostBase t) j ∈ (hostNames taken host).take i := by
  induction host generalizing taken i with
  | nil => cases hGet
  | cons s host ih =>
      cases i with
      | zero =>
          cases hGet
          rcases freshName_spec taken (hostBase t) with
            ⟨k, hBound, hName, -, hTaken⟩
          refine ⟨k, hBound, congrArg some hName, ?_⟩
          intro j hJ
          exact .inl (hTaken j hJ)
      | succ i =>
          rcases ih hGet with ⟨k, hBound, hName, hTaken⟩
          rw [List.length_cons] at hBound
          refine ⟨k, by omega, hName, ?_⟩
          intro j hJ
          rcases hTaken j hJ with hOld | hLater
          · rcases List.mem_cons.mp hOld with hFirst | hStart
            · refine .inr ?_
              rw [hFirst]
              exact List.mem_cons_self
            · exact .inl hStart
          · exact .inr (List.mem_cons_of_mem _ hLater)

end HostNames

------------------------------------------------------------
-- Assignments
------------------------------------------------------------

/-
  Names for the tensors of a list: different names, where each is
  the first one that is tried for its tensor and that no tensor
  before it has. The search ends after at most as many names as
  there are tensors before, and a tensor whose plain name is free
  has that name.
-/
structure Assigns
    (host : List HostTensor)
    (names : List String) : Prop where
  length_eq : names.length = host.length
  nodup : names.Nodup
  first_free :
    ∀ i t, host[i]? = some t →
      ∃ k ≤ i, names[i]? = some (candidate (hostBase t) k) ∧
        ∀ j < k, candidate (hostBase t) j ∈ names.take i
  plain_of_free :
    ∀ i t, host[i]? = some t →
      hostBase t ∉ names.take i → names[i]? = some (hostBase t)

theorem assigns_hostNames (host : List HostTensor) :
    Assigns host (hostNames [] host) := by
  have hFirst :
      ∀ i t, host[i]? = some t →
        ∃ k ≤ i, (hostNames [] host)[i]? = some (candidate (hostBase t) k) ∧
          ∀ j < k, candidate (hostBase t) j ∈ (hostNames [] host).take i := by
    intro i t hGet
    rcases hostNames_spec hGet with ⟨k, hBound, hName, hTaken⟩
    refine ⟨k, by simpa using hBound, hName, ?_⟩
    intro j hJ
    exact (hTaken j hJ).resolve_left List.not_mem_nil
  refine ⟨length_hostNames, nodup_hostNames, hFirst, ?_⟩
  intro i t hGet hFree
  rcases hFirst i t hGet with ⟨k, -, hName, hTaken⟩
  cases k with
  | zero => exact hName
  | succ k => exact absurd (hTaken 0 (Nat.succ_pos k)) hFree

/-
  The number behind a name, and the next one after it, have 31
  bits if there are fewer than 2^31 - 1 tensors.
-/
theorem Assigns.number_lt
    {host : List HostTensor}
    {names : List String}
    {i : Nat}
    {t : HostTensor}
    (hAssigns : Assigns host names)
    (hCount : host.length < 2 ^ 31 - 1)
    (hGet : host[i]? = some t) :
    ∃ k, names[i]? = some (candidate (hostBase t) k) ∧ k + 2 < 2 ^ 31 := by
  rcases hAssigns.first_free i t hGet with ⟨k, hBound, hName, -⟩
  have hInside := (List.getElem?_eq_some_iff.mp hGet).1
  exact ⟨k, hName, by omega⟩

end Systolic
