import Mathlib.Data.List.Basic
import Mathlib.Data.List.TakeWhile
import Systolic.Memory.FreeList

/-
  This file proves what the free regions of a memory are for: a
  reserved region is taken out of the free addresses, a released
  one is put back, and the regions stay sorted, apart and inside
  the memory.

  Key definitions include:
    * `Separated`
    * `FreeList.Sound`
    * `FreeList.Free`

  Key theorems include:
    * `FreeList.Sound.bestFit_eq`
    * `FreeList.Sound.bestFit_inside`
    * `FreeList.reserve?_spec`
    * `FreeList.release?_spec`
-/

namespace Systolic

/- Sums start from the literal zero. -/
attribute [local instance (high)] Zero.ofOfNat0

theorem Count.le_roundUp
    (a : Nat)
    {b : Nat}
    (hB : 0 < b) :
    a ≤ Count.roundUp a b := by
  have hDiv := Nat.div_add_mod (a + (b - 1)) b
  have hMod := Nat.mod_lt (a + (b - 1)) hB
  rw [Nat.mul_comm] at hDiv
  unfold Count.roundUp Count.ceilDiv
  omega

/- Rounding up leads to the first multiple from an address on. -/
theorem Count.roundUp_le
    {a b c : Nat}
    (hPos : 0 < b)
    (hDvd : b ∣ c)
    (hLe : a ≤ c) :
    Count.roundUp a b ≤ c := by
  rcases hDvd with ⟨q, rfl⟩
  have hQuotient : Count.ceilDiv a b ≤ q := by
    unfold Count.ceilDiv
    rw [← Nat.lt_succ_iff, Nat.div_lt_iff_lt_mul hPos, Nat.succ_mul,
      Nat.mul_comm q b]
    omega
  unfold Count.roundUp
  rw [Nat.mul_comm b q]
  exact Nat.mul_le_mul_right b hQuotient

theorem Count.roundUp_le_add
    (a b : Nat) :
    Count.roundUp a b ≤ a + (b - 1) :=
  Nat.div_mul_le_self _ _

/-
  Aligned addresses up to a capacity do not wrap around: the
  capacity is in the lower half of the counts.
-/
structure Count.Unwrapped
    (capacity alignment : Nat) : Prop where
  half : 2 * capacity ≤ Count.limit
  count : alignment < Count.limit

/- The address that is tried in a region is not wrapped around. -/
theorem Count.Unwrapped.mulWrap_ceilDiv
    {capacity alignment a : Nat}
    (hUnwrapped : Count.Unwrapped capacity alignment)
    (hInside : a ≤ capacity) :
    Count.mulWrap (Count.ceilDiv a (max alignment 1)) (max alignment 1) =
      Count.roundUp a (max alignment 1) := by
  have hHalf := hUnwrapped.half
  have hUnit : max alignment 1 < Count.limit :=
    Nat.max_lt.mpr ⟨hUnwrapped.count, by decide⟩
  have hBelow : Count.roundUp a (max alignment 1) < Count.limit := by
    rcases Nat.le_total a (max alignment 1) with hLe | hGe
    · exact Nat.lt_of_le_of_lt
        (Count.roundUp_le (by omega) (Nat.dvd_refl _) hLe) hUnit
    · have hNear := Count.roundUp_le_add a (max alignment 1)
      omega
  exact Nat.mod_eq_of_lt hBelow

------------------------------------------------------------
-- Addresses
------------------------------------------------------------

/- An address of a region. -/
def Region.Has
    (r : Region)
    (a : Nat) : Prop :=
  r.start ≤ a ∧ a < r.stop

/- An address of one of several regions. -/
def Covers
    (rs : List Region)
    (a : Nat) : Prop :=
  ∃ r ∈ rs, r.Has a

/- The number of addresses of regions that lie apart. -/
def extent (rs : List Region) : Nat :=
  (rs.map (·.length)).sum

/- Regions in the order of their addresses that do not touch. -/
structure Separated (rs : List Region) : Prop where
  pairwise : rs.Pairwise (fun r s => r.stop < s.start)
  pos : ∀ r ∈ rs, 0 < r.length

@[simp] theorem covers_nil
    (a : Nat) :
    ¬ Covers [] a := by
  intro hCovers
  rcases hCovers with ⟨r, hMem, -⟩
  cases hMem

@[simp] theorem covers_cons
    (r : Region)
    (rs : List Region)
    (a : Nat) :
    Covers (r :: rs) a ↔ r.Has a ∨ Covers rs a := by
  simp [Covers]

@[simp] theorem covers_append
    (rs ss : List Region)
    (a : Nat) :
    Covers (rs ++ ss) a ↔ Covers rs a ∨ Covers ss a := by
  simp [Covers, or_and_right, exists_or]

@[simp] theorem extent_nil : extent [] = 0 := by
  simp [extent]

@[simp] theorem extent_cons
    (r : Region)
    (rs : List Region) :
    extent (r :: rs) = r.length + extent rs := by
  simp [extent]

@[simp] theorem extent_append
    (rs ss : List Region) :
    extent (rs ++ ss) = extent rs + extent ss := by
  simp [extent]

namespace Separated

variable {rs ss : List Region} {r : Region}

/- Two lists of regions, one after the other. -/
theorem append
    (hLeft : Separated rs)
    (hRight : Separated ss)
    (hBetween : ∀ r ∈ rs, ∀ s ∈ ss, r.stop < s.start) :
    Separated (rs ++ ss) := by
  constructor
  · exact List.pairwise_append.mpr
      ⟨hLeft.pairwise, hRight.pairwise, hBetween⟩
  · intro r hMem
    rcases List.mem_append.mp hMem with hMem | hMem
    · exact hLeft.pos r hMem
    · exact hRight.pos r hMem

theorem of_append
    (hSeparated : Separated (rs ++ ss)) :
    Separated rs ∧ Separated ss ∧
      ∀ r ∈ rs, ∀ s ∈ ss, r.stop < s.start := by
  rcases List.pairwise_append.mp hSeparated.pairwise with
    ⟨hLeft, hRight, hBetween⟩
  refine ⟨⟨hLeft, ?_⟩, ⟨hRight, ?_⟩, hBetween⟩
  · intro r hMem
    exact hSeparated.pos r (List.mem_append_left _ hMem)
  · intro r hMem
    exact hSeparated.pos r (List.mem_append_right _ hMem)

theorem of_cons
    (hSeparated : Separated (r :: rs)) :
    0 < r.length ∧ Separated rs ∧ ∀ s ∈ rs, r.stop < s.start := by
  rcases List.pairwise_cons.mp hSeparated.pairwise with ⟨hFirst, hRest⟩
  refine ⟨hSeparated.pos r List.mem_cons_self, ⟨hRest, ?_⟩, hFirst⟩
  intro s hMem
  exact hSeparated.pos s (List.mem_cons_of_mem _ hMem)

theorem cons
    (hPos : 0 < r.length)
    (hRest : Separated rs)
    (hFirst : ∀ s ∈ rs, r.stop < s.start) :
    Separated (r :: rs) := by
  constructor
  · exact List.pairwise_cons.mpr ⟨hFirst, hRest.pairwise⟩
  · intro s hMem
    rcases List.mem_cons.mp hMem with rfl | hMem
    · exact hPos
    · exact hRest.pos s hMem

/- The first region starts at the lowest address. -/
theorem start_le_of_covers
    {a : Nat}
    (hSeparated : Separated (r :: rs))
    (hCovers : Covers (r :: rs) a) :
    r.start ≤ a := by
  rcases hSeparated.of_cons with ⟨-, -, hNext⟩
  rcases (covers_cons r rs a).mp hCovers with hHas | ⟨s, hMem, hHas⟩
  · exact hHas.1
  · have hApart := hNext s hMem
    have hStop : r.stop = r.start + r.length := rfl
    have hBelow := hHas.1
    omega

/- The later regions hold the addresses after the first one. -/
theorem covers_tail_iff
    {a : Nat}
    (hSeparated : Separated (r :: rs)) :
    Covers rs a ↔ Covers (r :: rs) a ∧ r.stop < a := by
  rcases hSeparated.of_cons with ⟨-, -, hNext⟩
  rw [covers_cons]
  constructor
  · intro hCovers
    refine ⟨.inr hCovers, ?_⟩
    rcases hCovers with ⟨s, hMem, hHas⟩
    exact Nat.lt_of_lt_of_le (hNext s hMem) hHas.1
  · rintro ⟨hHas | hCovers, hAfter⟩
    · exact absurd hHas.2 (by omega)
    · exact hCovers

/- The first region ends at an address that no region has. -/
theorem stop_le_of_covers
    {s : Region}
    (hLeft : Separated (r :: rs))
    (hStart : s.start = r.start)
    (hCovers : ∀ a, Covers (s :: ss) a → Covers (r :: rs) a) :
    s.stop ≤ r.stop := by
  by_contra hBeyond
  have hStop : r.stop = r.start + r.length := rfl
  have hHas : s.Has r.stop := ⟨by omega, by omega⟩
  have hCovered := hCovers r.stop ((covers_cons s ss _).mpr (.inl hHas))
  rcases (covers_cons r rs _).mp hCovered with hFirst | hLater
  · exact Nat.lt_irrefl _ hFirst.2
  · exact Nat.lt_irrefl _ (hLeft.covers_tail_iff.mp hLater).2

/- The addresses of separated regions determine the regions. -/
theorem eq_of_covers
    (hLeft : Separated rs)
    (hRight : Separated ss)
    (hCovers : ∀ a, Covers rs a ↔ Covers ss a) :
    rs = ss := by
  have hStarts :
      ∀ {r : Region} {rest : List Region}, Separated (r :: rest) →
        Covers (r :: rest) r.start := by
    intro r rest hSeparated
    have hPos := hSeparated.of_cons.1
    exact (covers_cons r rest _).mpr
      (.inl ⟨Nat.le_refl _, by simp only [Region.stop]; omega⟩)
  induction rs generalizing ss with
  | nil =>
      cases ss with
      | nil => rfl
      | cons s ss =>
          exact absurd ((hCovers _).mpr (hStarts hRight)) (covers_nil _)
  | cons r rs ih =>
      cases ss with
      | nil => exact absurd ((hCovers _).mp (hStarts hLeft)) (covers_nil _)
      | cons s ss =>
          have hStart : r.start = s.start := Nat.le_antisymm
            (hLeft.start_le_of_covers ((hCovers _).mpr (hStarts hRight)))
            (hRight.start_le_of_covers ((hCovers _).mp (hStarts hLeft)))
          have hStop : r.stop = s.stop := Nat.le_antisymm
            (hRight.stop_le_of_covers hStart (fun a => (hCovers a).mp))
            (hLeft.stop_le_of_covers hStart.symm (fun a => (hCovers a).mpr))
          have hTail : rs = ss := by
            apply ih hLeft.of_cons.2.1 hRight.of_cons.2.1
            intro a
            rw [hLeft.covers_tail_iff, hRight.covers_tail_iff, hCovers,
              hStop]
          have hFirst : r = s := by
            rcases r with ⟨start, length⟩
            rcases s with ⟨start', length'⟩
            simp only [Region.stop] at hStart hStop
            rw [Region.mk.injEq]
            omega
          rw [hFirst, hTail]

end Separated

namespace FreeList

variable {l l' : FreeList} {wanted r : Region} {rs : List Region}
variable {size alignment address : Nat}

/- An address that is free. -/
def Free
    (l : FreeList)
    (a : Nat) : Prop :=
  Covers l.regions a

/-
  The free regions lie apart and inside the memory. A region
  without addresses is free only in a memory without addresses.
-/
structure Sound (l : FreeList) : Prop where
  apart : l.regions.Pairwise (fun r s => r.stop < s.start)
  pos : 0 < l.capacity → ∀ r ∈ l.regions, 0 < r.length
  inside : ∀ r ∈ l.regions, r.stop ≤ l.capacity

theorem Sound.separated
    (hSound : l.Sound)
    (hPos : 0 < l.capacity) :
    Separated l.regions :=
  ⟨hSound.apart, hSound.pos hPos⟩

/- A request is placed by what is free. -/
theorem Sound.bestFit_eq
    (hSound : l.Sound)
    (hSound' : l'.Sound)
    (hPos : 0 < l.capacity)
    (hCapacity : l'.capacity = l.capacity)
    (hFree : ∀ a, l.Free a ↔ l'.Free a) :
    l.bestFit = l'.bestFit := by
  have hRegions : l.regions = l'.regions :=
    (hSound.separated hPos).eq_of_covers
      (hSound'.separated (by omega)) hFree
  funext size alignment
  rw [bestFit, bestFit, hRegions]

theorem sound_of_separated
    (hSeparated : Separated l.regions)
    (hInside : ∀ r ∈ l.regions, r.stop ≤ l.capacity) :
    l.Sound :=
  ⟨hSeparated.pairwise, fun _ => hSeparated.pos, hInside⟩

theorem sound_full (capacity : Nat) : (full capacity).Sound := by
  constructor
  case apart => exact List.pairwise_singleton _ _
  case pos =>
    intro hPos r hMem
    rcases List.mem_singleton.mp hMem with rfl
    exact hPos
  case inside =>
    intro r hMem
    rcases List.mem_singleton.mp hMem with rfl
    simp [full, Region.stop]

------------------------------------------------------------
-- Placement
------------------------------------------------------------

theorem smallestFit_mem
    (hFit : smallestFit size alignment rs = some (r, address)) :
    r ∈ rs ∧ r.fit? size alignment = some address := by
  induction rs generalizing r address with
  | nil => cases hFit
  | cons s rs ih =>
      simp only [smallestFit] at hFit
      split at hFit
      case h_1 found hNone =>
        rcases ih hFit with ⟨hMem, hFits⟩
        exact ⟨List.mem_cons_of_mem _ hMem, hFits⟩
      case h_2 here hHere hNone =>
        cases hFit
        exact ⟨List.mem_cons_self, hHere⟩
      case h_3 here s' later hHere hLater =>
        split at hFit
        · cases hFit
          exact ⟨List.mem_cons_self, hHere⟩
        · cases hFit
          rcases ih hLater with ⟨hMem, hFits⟩
          exact ⟨List.mem_cons_of_mem _ hMem, hFits⟩

/-
  A request is placed inside a free region, as long as addresses
  do not wrap around.
-/
theorem Sound.bestFit_inside
    (hSound : l.Sound)
    (hUnwrapped : Count.Unwrapped l.capacity alignment)
    (hFit : l.bestFit size alignment = some address) :
    ∃ r ∈ l.regions,
      Region.Inside { start := address, length := size } r := by
  rcases Option.map_eq_some_iff.mp hFit with ⟨⟨r, a⟩, hFound, rfl⟩
  rcases smallestFit_mem hFound with ⟨hMem, hFits⟩
  refine ⟨r, hMem, ?_⟩
  have hStart : r.start ≤ l.capacity := by
    have hStop := hSound.inside r hMem
    simp only [Region.stop] at hStop
    omega
  simp only [Region.fit?, hUnwrapped.mulWrap_ceilDiv hStart] at hFits
  split at hFits
  case isFalse => cases hFits
  case isTrue hStop =>
    cases hFits
    exact ⟨Count.le_roundUp _ (by omega), hStop⟩

/- A part is taken out of one region, and the others stay. -/
theorem carve?_eq_some
    {rest : List Region}
    (hCarve : carve? wanted rs = some rest) :
    ∃ before r after,
      rs = before ++ r :: after ∧ wanted.Inside r ∧
        rest = before ++ (remainder r wanted ++ after) := by
  induction rs generalizing rest with
  | nil => cases hCarve
  | cons s rs ih =>
      simp only [carve?] at hCarve
      split at hCarve
      case isTrue hInside =>
        cases hCarve
        exact ⟨[], s, rs, rfl, hInside, rfl⟩
      case isFalse =>
        rcases Option.map_eq_some_iff.mp hCarve with ⟨tail, hTail, rfl⟩
        rcases ih hTail with ⟨before, r, after, rfl, hInside, rfl⟩
        exact ⟨s :: before, r, after, rfl, hInside, rfl⟩

theorem carve?_isSome
    (hMem : r ∈ rs)
    (hInside : wanted.Inside r) :
    ∃ rest, carve? wanted rs = some rest := by
  induction rs with
  | nil => cases hMem
  | cons s rs ih =>
      simp only [carve?]
      by_cases hFirst : wanted.Inside s
      · exact ⟨_, if_pos hFirst⟩
      · rcases List.mem_cons.mp hMem with rfl | hRest
        · exact absurd hInside hFirst
        · rcases ih hRest with ⟨rest, hTail⟩
          exact ⟨s :: rest, by rw [if_neg hFirst, hTail, Option.map_some]⟩

/- Regions without addresses do not matter. -/
theorem covers_filter_pos
    (rs : List Region)
    (a : Nat) :
    Covers (rs.filter (fun r => 0 < r.length)) a ↔ Covers rs a := by
  constructor
  · intro hCovers
    rcases hCovers with ⟨r, hMem, hHas⟩
    exact ⟨r, List.mem_of_mem_filter hMem, hHas⟩
  · intro hCovers
    rcases hCovers with ⟨r, hMem, hHas⟩
    refine ⟨r, List.mem_filter.mpr ⟨hMem, ?_⟩, hHas⟩
    have hStop : r.stop = r.start + r.length := rfl
    have hBetween := hHas
    unfold Region.Has at hBetween
    exact decide_eq_true (by omega)

theorem extent_filter_pos
    (rs : List Region) :
    extent (rs.filter (fun r => 0 < r.length)) = extent rs := by
  induction rs with
  | nil => rfl
  | cons r rs ih =>
      rw [List.filter_cons]
      split
      case isTrue => rw [extent_cons, extent_cons, ih]
      case isFalse hEmpty =>
        have hZero : r.length = 0 := by
          simpa using hEmpty
        rw [extent_cons, ih, hZero, Nat.zero_add]

/- What is left of a region around a part lies apart inside it. -/
theorem remainder_spec
    (hInside : wanted.Inside r)
    (hPos : 0 < wanted.length) :
    Separated (remainder r wanted) ∧
      (∀ piece ∈ remainder r wanted, piece.Inside r) ∧
      (∀ a, Covers (remainder r wanted) a ↔ r.Has a ∧ ¬ wanted.Has a) ∧
      extent (remainder r wanted) + wanted.length = r.length := by
  rcases hInside with ⟨hStart, hStop⟩
  have hWanted : wanted.stop = wanted.start + wanted.length := rfl
  have hR : r.stop = r.start + r.length := rfl
  refine ⟨⟨?_, ?_⟩, ?_, ?_, ?_⟩
  · apply List.Pairwise.filter
    simp [Region.stop]
    omega
  · intro piece hMem
    exact of_decide_eq_true (List.mem_filter.mp hMem).2
  · intro piece hMem
    have hPiece := List.mem_of_mem_filter hMem
    simp only [List.mem_cons, List.not_mem_nil, or_false] at hPiece
    rcases hPiece with rfl | rfl
    · simp only [Region.Inside, Region.stop] at *
      omega
    · simp only [Region.Inside, Region.stop] at *
      omega
  · intro a
    rw [remainder, covers_filter_pos]
    simp only [covers_cons, covers_nil, or_false, Region.Has,
      Region.stop] at *
    omega
  · rw [remainder, extent_filter_pos]
    simp only [extent_cons, extent_nil]
    omega

/- A part of a free region can be reserved. -/
theorem reserve?_isSome
    (hMem : r ∈ l.regions)
    (hInside : wanted.Inside r) :
    ∃ l', l.reserve? wanted = some l' := by
  rcases carve?_isSome hMem hInside with ⟨rest, hCarve⟩
  exact ⟨_, by rw [reserve?, hCarve, Option.map_some]⟩

/- The place of a request can be reserved. -/
theorem Sound.reserve?_bestFit
    (hSound : l.Sound)
    (hUnwrapped : Count.Unwrapped l.capacity alignment)
    (hFit : l.bestFit size alignment = some address) :
    l.reserve? { start := address, length := size } ≠ none := by
  rcases hSound.bestFit_inside hUnwrapped hFit with ⟨r, hMem, hInside⟩
  rcases reserve?_isSome hMem hInside with ⟨l', hReserve⟩
  rw [hReserve]
  exact Option.some_ne_none l'

/- What is reserved is a part of a free region. -/
theorem inside_of_reserve?
    (hReserve : l.reserve? wanted = some l') :
    ∃ r ∈ l.regions, wanted.Inside r := by
  rcases Option.map_eq_some_iff.mp hReserve with ⟨rest, hCarve, -⟩
  rcases carve?_eq_some hCarve with ⟨before, r, after, hSplit, hPart, -⟩
  exact ⟨r, by simp [hSplit], hPart⟩

/- A reserved region is taken out of the free addresses. -/
theorem reserve?_spec
    (hSound : l.Sound)
    (hPos : 0 < wanted.length)
    (hReserve : l.reserve? wanted = some l') :
    l'.Sound ∧ l'.capacity = l.capacity ∧
      (∀ a, l'.Free a ↔ l.Free a ∧ ¬ wanted.Has a) ∧
      extent l'.regions + wanted.length = extent l.regions := by
  rcases inside_of_reserve? hReserve with ⟨r, hMem, hInside⟩
  rcases Option.map_eq_some_iff.mp hReserve with ⟨rest, hCarve, rfl⟩
  rcases carve?_eq_some hCarve with ⟨before, s, after, hSplit, hPart, rfl⟩
  have hRoom : 0 < l.capacity := by
    have hStop := hSound.inside r hMem
    simp only [Region.Inside, Region.stop] at hInside hStop
    omega
  have hSeparated := hSound.separated hRoom
  rw [hSplit] at hSeparated
  rcases hSeparated.of_append with ⟨hBefore, hRest, hBetween⟩
  rcases hRest.of_cons with ⟨hPosS, hAfter, hNext⟩
  rcases remainder_spec hPart hPos with
    ⟨hPieces, hPiecesIn, hPiecesCover, hPiecesExtent⟩
  -- The pieces lie where the region was.
  have hWithin :
      ∀ t ∈ remainder s wanted ++ after, s.start ≤ t.start := by
    intro t hT
    rcases List.mem_append.mp hT with hPiece | hLater
    · exact (hPiecesIn t hPiece).1
    · have hApart := hNext t hLater
      have hStop : s.stop = s.start + s.length := rfl
      omega
  refine ⟨sound_of_separated ?_ ?_, rfl, ?_, ?_⟩
  · apply hBefore.append
    · apply hPieces.append hAfter
      intro t hT u hU
      have hStop := (hPiecesIn t hT).2
      have hApart := hNext u hU
      omega
    · intro t hT u hU
      have hApart := hBetween t hT s List.mem_cons_self
      have hStart := hWithin u hU
      omega
  · intro t hT
    have hBound := hSound.inside
    rw [hSplit] at hBound
    rcases List.mem_append.mp hT with hT | hT
    · exact hBound t (List.mem_append_left _ hT)
    · rcases List.mem_append.mp hT with hT | hT
      · have hStop := (hPiecesIn t hT).2
        exact Nat.le_trans hStop (hBound s (by simp))
      · exact hBound t (by simp [hT])
  · intro a
    rcases hPart with ⟨hStart, hStop⟩
    have hBeforeOff : Covers before a → ¬ wanted.Has a := by
      intro hCovers hHas
      rcases hCovers with ⟨t, hT, hTHas⟩
      have hApart := hBetween t hT s List.mem_cons_self
      simp only [Region.Has] at hHas hTHas
      omega
    have hAfterOff : Covers after a → ¬ wanted.Has a := by
      intro hCovers hHas
      rcases hCovers with ⟨t, hT, hTHas⟩
      have hApart := hNext t hT
      simp only [Region.Has] at hHas hTHas
      omega
    simp only [Free, hSplit, covers_append, covers_cons, hPiecesCover]
    constructor
    · rintro (hLow | ⟨hHas, hOff⟩ | hHigh)
      · exact ⟨.inl hLow, hBeforeOff hLow⟩
      · exact ⟨.inr (.inl hHas), hOff⟩
      · exact ⟨.inr (.inr hHigh), hAfterOff hHigh⟩
    · rintro ⟨hLow | hHas | hHigh, hOff⟩
      · exact .inl hLow
      · exact .inr (.inl ⟨hHas, hOff⟩)
      · exact .inr (.inr hHigh)
  · simp only [hSplit, extent_append, extent_cons]
    omega

------------------------------------------------------------
-- Release
------------------------------------------------------------

/- A region joined to the regions after it. -/
theorem joinNext_spec
    {after : List Region}
    (hPos : 0 < r.length)
    (hAfter : Separated after)
    (hBelow : ∀ s ∈ after, r.stop ≤ s.start) :
    Separated (joinNext r after) ∧
      (∀ s ∈ joinNext r after, r.start ≤ s.start) ∧
      (∀ a, Covers (joinNext r after) a ↔ r.Has a ∨ Covers after a) ∧
      extent (joinNext r after) = r.length + extent after ∧
      ∀ s ∈ joinNext r after,
        s.stop = r.stop ∨ ∃ t ∈ after, s.stop = t.stop := by
  have hR : r.stop = r.start + r.length := rfl
  cases after with
  | nil =>
      refine ⟨.cons hPos ⟨.nil, by simp⟩ (by simp), ?_, ?_, ?_, ?_⟩ <;>
        simp [joinNext]
  | cons s ss =>
      rcases hAfter.of_cons with ⟨hPosS, hRest, hNext⟩
      have hS : s.stop = s.start + s.length := rfl
      have hTouch := hBelow s List.mem_cons_self
      by_cases hJoin : r.stop = s.start
      · have hStop :
            Region.stop { r with length := r.length + s.length } =
              s.stop := by
          simp only [Region.stop] at *
          omega
        simp only [joinNext, hJoin, if_true]
        refine ⟨.cons (by simp only; omega) hRest ?_, ?_, ?_, ?_, ?_⟩
        · intro t hT
          rw [hStop]
          exact hNext t hT
        · intro t hT
          rcases List.mem_cons.mp hT with rfl | hT
          · exact Nat.le_refl _
          · have hApart := hNext t hT
            omega
        · intro a
          have hJoined :
              Region.Has { r with length := r.length + s.length } a ↔
                r.Has a ∨ s.Has a := by
            unfold Region.Has
            rw [hStop]
            simp only
            omega
          rw [covers_cons, covers_cons, hJoined, or_assoc]
        · simp only [extent_cons]
          omega
        · intro t hT
          rcases List.mem_cons.mp hT with rfl | hT
          · exact .inr ⟨s, List.mem_cons_self, hStop⟩
          · exact .inr ⟨t, List.mem_cons_of_mem _ hT, rfl⟩
      · simp only [joinNext, hJoin, if_false]
        refine ⟨.cons hPos hAfter ?_, ?_, ?_, ?_, ?_⟩
        · intro t hT
          rcases List.mem_cons.mp hT with rfl | hT
          · omega
          · have hApart := hNext t hT
            omega
        · intro t hT
          rcases List.mem_cons.mp hT with rfl | hT
          · exact Nat.le_refl _
          · have hStart := hBelow t hT
            omega
        · intro a
          rw [covers_cons]
        · rw [extent_cons]
        · intro t hT
          rcases List.mem_cons.mp hT with rfl | hT
          · exact .inl rfl
          · exact .inr ⟨t, hT, rfl⟩

/- The last region before is joined to the first one after. -/
theorem joinPrevious_concat
    (front : List Region)
    (p : Region)
    (rs : List Region) :
    joinPrevious rs (front ++ [p]) = front ++ joinNext p rs := by
  have hOne : joinPrevious rs [p] = joinNext p rs := by
    cases rs with
    | nil => rfl
    | cons r rest => rfl
  induction front with
  | nil => exact hOne
  | cons q front ih =>
      cases front with
      | nil => exact congrArg (q :: ·) hOne
      | cons q' front => exact congrArg (q :: ·) ih

/- Regions joined to the regions before them. -/
theorem joinPrevious_spec
    {before : List Region}
    (hBefore : Separated before)
    (hRs : Separated rs)
    (hBelow : ∀ s ∈ before, ∀ t ∈ rs, s.stop ≤ t.start) :
    Separated (joinPrevious rs before) ∧
      (∀ a, Covers (joinPrevious rs before) a ↔
        Covers before a ∨ Covers rs a) ∧
      extent (joinPrevious rs before) = extent before + extent rs ∧
      ∀ s ∈ joinPrevious rs before,
        ∃ t ∈ before ++ rs, s.stop = t.stop := by
  rcases List.eq_nil_or_concat before with rfl | ⟨front, p, rfl⟩
  · refine ⟨hRs, ?_, ?_, ?_⟩
    · intro a
      simp [joinPrevious]
    · simp [joinPrevious]
    · intro s hMem
      exact ⟨s, hMem, rfl⟩
  · rw [List.concat_eq_append] at *
    rw [joinPrevious_concat]
    rcases hBefore.of_append with ⟨hFront, hP, hFrontP⟩
    have hMemP : p ∈ front ++ [p] := by simp
    rcases joinNext_spec (hP.pos p (by simp)) hRs (hBelow p hMemP) with
      ⟨hJoined, hStart, hCovers, hExtent, hStop⟩
    refine ⟨hFront.append hJoined ?_, ?_, ?_, ?_⟩
    · intro s hS t hT
      have hApart := hFrontP s hS p (by simp)
      have hStartT := hStart t hT
      have hStopP : p.stop = p.start + p.length := rfl
      omega
    · intro a
      simp only [covers_append, covers_cons, covers_nil, hCovers, or_false,
        or_assoc]
    · simp only [extent_append, extent_cons, extent_nil, hExtent]
      omega
    · intro s hMem
      rcases List.mem_append.mp hMem with hMem | hMem
      · exact ⟨s, by simp [hMem], rfl⟩
      · rcases hStop s hMem with hSame | ⟨t, hT, hSame⟩
        · exact ⟨p, by simp, hSame⟩
        · exact ⟨t, List.mem_append_right _ hT, hSame⟩

section Neighbours

variable {s : Region}

/- A free region that starts before a taken one ends before it. -/
theorem stop_le_of_before
    (hPos : 0 < r.length)
    (hTaken : ∀ a, r.Has a → ¬ l.Free a)
    (hMem : s ∈ l.regions.takeWhile (fun s => s.start < r.start)) :
    s.stop ≤ r.start := by
  have hStart : s.start < r.start := by
    simpa using List.mem_takeWhile_imp hMem
  by_contra hMeets
  have hR : r.stop = r.start + r.length := rfl
  apply hTaken r.start ⟨Nat.le_refl _, by omega⟩
  exact ⟨s, List.takeWhile_subset _ hMem, by omega, by omega⟩

/- The free regions from the first that does not start before another. -/
theorem Sound.start_le_of_after
    (hSound : l.Sound)
    (hPos : 0 < l.capacity)
    (hMem : s ∈ l.regions.dropWhile (fun s => s.start < r.start)) :
    r.start ≤ s.start := by
  have hAfter : Separated
      (l.regions.dropWhile (fun s => s.start < r.start)) := by
    have hSeparated := hSound.separated hPos
    rw [← List.takeWhile_append_dropWhile
      (p := fun s : Region => s.start < r.start)
      (l := l.regions)] at hSeparated
    exact hSeparated.of_append.2.1
  have hFirst := List.head?_dropWhile_not
    (fun s : Region => decide (s.start < r.start)) l.regions
  cases hList : l.regions.dropWhile (fun s => s.start < r.start) with
  | nil =>
      rw [hList] at hMem
      cases hMem
  | cons first rest =>
      rw [hList] at hFirst hMem hAfter
      have hNot := of_decide_eq_false hFirst
      rcases List.mem_cons.mp hMem with rfl | hLater
      · omega
      · have hApart := hAfter.of_cons.2.2 s hLater
        have hStop : first.stop = first.start + first.length := rfl
        omega

/- A free region that does not start before a taken one starts after it. -/
theorem Sound.stop_le_of_after
    (hSound : l.Sound)
    (hPos : 0 < l.capacity)
    (hTaken : ∀ a, r.Has a → ¬ l.Free a)
    (hMem : s ∈ l.regions.dropWhile (fun s => s.start < r.start)) :
    r.stop ≤ s.start := by
  have hStart := hSound.start_le_of_after hPos hMem
  have hRegion : s ∈ l.regions := List.dropWhile_subset _ hMem
  have hPosS := hSound.pos hPos s hRegion
  have hS : s.stop = s.start + s.length := rfl
  by_contra hMeets
  apply hTaken s.start ⟨hStart, by omega⟩
  exact ⟨s, hRegion, Nat.le_refl _, by omega⟩

/- A region apart from the free ones beside it is released. -/
theorem release?_eq_some
    (hInside : r.stop ≤ l.capacity)
    (hLeft :
      ∀ s ∈ l.regions.takeWhile (fun s => s.start < r.start),
        s.stop ≤ r.start)
    (hRight :
      ∀ s ∈ l.regions.dropWhile (fun s => s.start < r.start),
        r.stop ≤ s.start) :
    l.release? r =
      some { l with
        regions :=
          joinPrevious
            (joinNext r
              (l.regions.dropWhile (fun s => s.start < r.start)))
            (l.regions.takeWhile (fun s => s.start < r.start)) } := by
  apply if_neg
  intro hFault
  rcases hFault with hFault | hFault | hFault
  · omega
  · rcases (Option.any_eq_true _ _).mp hFault with ⟨s, hLast, hMeets⟩
    have hApart := hLeft s (List.mem_of_getLast? hLast)
    have hMeets' := of_decide_eq_true hMeets
    unfold Region.Overlaps at hMeets'
    omega
  · rcases (Option.any_eq_true _ _).mp hFault with ⟨s, hFirst, hMeets⟩
    have hApart := hRight s (List.mem_of_head? hFirst)
    have hMeets' := of_decide_eq_true hMeets
    unfold Region.Overlaps at hMeets'
    omega

/-
  Releasing a region of the memory that has no free address
  succeeds and makes its addresses free.
-/
theorem release?_spec
    (hSound : l.Sound)
    (hPos : 0 < r.length)
    (hInside : r.stop ≤ l.capacity)
    (hTaken : ∀ a, r.Has a → ¬ l.Free a) :
    ∃ l', l.release? r = some l' ∧ l'.Sound ∧
      l'.capacity = l.capacity ∧
      (∀ a, l'.Free a ↔ l.Free a ∨ r.Has a) ∧
      extent l'.regions = extent l.regions + r.length := by
  have hR : r.stop = r.start + r.length := rfl
  have hCapacity : 0 < l.capacity := by omega
  let before := l.regions.takeWhile (fun s => s.start < r.start)
  let after := l.regions.dropWhile (fun s => s.start < r.start)
  have hSplit : l.regions = before ++ after :=
    List.takeWhile_append_dropWhile.symm
  have hSeparated := hSound.separated hCapacity
  rw [hSplit] at hSeparated
  rcases hSeparated.of_append with ⟨hBefore, hAfter, -⟩
  have hLeft : ∀ s ∈ before, s.stop ≤ r.start :=
    fun s hMem => stop_le_of_before hPos hTaken hMem
  have hRight : ∀ s ∈ after, r.stop ≤ s.start :=
    fun s hMem => hSound.stop_le_of_after hCapacity hTaken hMem
  rcases joinNext_spec hPos hAfter hRight with
    ⟨hJoined, hStart, hCovers, hExtent, hStop⟩
  rcases joinPrevious_spec hBefore hJoined
      (fun s hS t hT => Nat.le_trans (hLeft s hS) (hStart t hT)) with
    ⟨hAll, hAllCovers, hAllExtent, hAllStop⟩
  refine ⟨_, release?_eq_some hInside hLeft hRight,
    sound_of_separated hAll ?_, rfl, ?_, ?_⟩
  · intro s hMem
    have hBound := hSound.inside
    rw [hSplit] at hBound
    rcases hAllStop s hMem with ⟨t, hT, hSame⟩
    rw [hSame]
    rcases List.mem_append.mp hT with hT | hT
    · exact hBound t (List.mem_append_left _ hT)
    · rcases hStop t hT with hOwn | ⟨u, hU, hSame'⟩
      · rw [hOwn]
        exact hInside
      · rw [hSame']
        exact hBound u (List.mem_append_right _ hU)
  · intro a
    unfold Free
    rw [hAllCovers, hCovers, hSplit, covers_append, or_comm (a := r.Has a),
      or_assoc]
  · rw [hAllExtent, hExtent, hSplit, extent_append]
    omega

end Neighbours

end FreeList

end Systolic
