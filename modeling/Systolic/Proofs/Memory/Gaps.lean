import Mathlib.Order.Bounds.Basic
import Systolic.Proofs.Memory.Refusals

/-
  This file proves that the free regions of a memory are the
  gaps between what is taken: every run of free addresses lies
  in one of them, and none can be extended. A request is placed
  whenever it fits anywhere, at the first aligned address of the
  smallest gap that can hold it, and of the lowest one of these.

  Key definitions include:
    * `Gap`
    * `Suits`
    * `HasPlace`
    * `BestPlace`

  Key theorems include:
    * `FreeList.Shares.gap_iff`
    * `FreeList.Shares.bestFit_isSome_iff`
    * `FreeList.Shares.bestFit_best`
-/

namespace Systolic

------------------------------------------------------------
-- Alignment
------------------------------------------------------------

/- An address is a multiple of an alignment. Zero asks for nothing. -/
def Aligned
    (alignment a : Nat) : Prop :=
  alignment = 0 ∨ alignment ∣ a

instance
    (alignment a : Nat) :
    Decidable (Aligned alignment a) := by
  unfold Aligned
  infer_instance

theorem aligned_iff_dvd
    {alignment a : Nat} :
    Aligned alignment a ↔ max alignment 1 ∣ a := by
  unfold Aligned
  rcases Nat.eq_zero_or_pos alignment with hZero | hPos
  · simp [hZero]
  · rw [Nat.max_eq_left hPos]
    simp [Nat.ne_of_gt hPos]

theorem isLeast_roundUp
    (alignment a : Nat) :
    IsLeast {b | Aligned alignment b ∧ a ≤ b}
      (Count.roundUp a (max alignment 1)) := by
  have hPos : 0 < max alignment 1 := by omega
  constructor
  · refine ⟨aligned_iff_dvd.mpr ?_, Count.le_roundUp a hPos⟩
    exact Nat.dvd_mul_left _ _
  · rintro b ⟨hAligned, hLe⟩
    exact Count.roundUp_le hPos (aligned_iff_dvd.mp hAligned) hLe

------------------------------------------------------------
-- Gaps
------------------------------------------------------------

/- A region ends below a bound and meets nothing that is taken. -/
def Clear
    (bound : Nat)
    (taken : List Region)
    (r : Region) : Prop :=
  r.stop ≤ bound ∧ ∀ s ∈ taken, ¬ r.Overlaps s

/- A region with addresses that is clear and part of no other one. -/
structure Gap
    (bound : Nat)
    (taken : List Region)
    (g : Region) : Prop where
  pos : 0 < g.length
  clear : Clear bound taken g
  maximal : ∀ h, Clear bound taken h → g.Inside h → h = g

/- An aligned address at which a request meets nothing. -/
structure Suits
    (bound : Nat)
    (taken : List Region)
    (size alignment a : Nat) : Prop where
  aligned : Aligned alignment a
  clear : Clear bound taken { start := a, length := size }

instance
    (bound : Nat)
    (taken : List Region)
    (r : Region) :
    Decidable (Clear bound taken r) := by
  unfold Clear
  infer_instance

instance
    (bound : Nat)
    (taken : List Region)
    (size alignment a : Nat) :
    Decidable (Suits bound taken size alignment a) :=
  decidable_of_iff
    (Aligned alignment a ∧ Clear bound taken { start := a, length := size })
    ⟨fun hBoth => ⟨hBoth.1, hBoth.2⟩, fun hSuits => ⟨hSuits.1, hSuits.2⟩⟩

/- There is an address that suits a request. -/
def HasPlace
    (bound : Nat)
    (taken : List Region)
    (size alignment : Nat) : Prop :=
  ∃ a, Suits bound taken size alignment a

instance
    (bound : Nat)
    (taken : List Region)
    (size alignment : Nat) :
    Decidable (HasPlace bound taken size alignment) :=
  decidable_of_iff
    (∃ a, a < bound + 1 ∧ Suits bound taken size alignment a)
    ⟨fun ⟨a, _, hSuits⟩ => ⟨a, hSuits⟩,
      fun ⟨a, hSuits⟩ => ⟨a, by
        have hStop := hSuits.clear.1
        simp only [Region.stop] at hStop
        omega, hSuits⟩⟩

/- A place among more regions in use is one among fewer. -/
theorem HasPlace.mono
    {bound : Nat}
    {taken taken' : List Region}
    {size alignment : Nat}
    (hPlace : HasPlace bound taken size alignment)
    (hFewer : ∀ r ∈ taken', r ∈ taken) :
    HasPlace bound taken' size alignment := by
  rcases hPlace with ⟨a, hAligned, hStop, hApart⟩
  exact ⟨a, hAligned, hStop, fun r hMem => hApart r (hFewer r hMem)⟩

/- A region has an aligned address with a request after it. -/
def Region.Holds
    (g : Region)
    (size alignment : Nat) : Prop :=
  ∃ a, Aligned alignment a ∧
    Region.Inside { start := a, length := size } g

/-
  The first aligned address of the smallest gap that holds a
  request, and of the lowest one of these.
-/
def BestPlace
    (bound : Nat)
    (taken : List Region)
    (size alignment a : Nat) : Prop :=
  ∃ g, Gap bound taken g ∧
    IsLeast {b | Aligned alignment b ∧ g.start ≤ b} a ∧
    a + size ≤ g.stop ∧
    ∀ h, Gap bound taken h → h.Holds size alignment →
      g.length < h.length ∨ g.length = h.length ∧ g.start ≤ h.start

theorem Region.inside_refl (r : Region) : r.Inside r :=
  ⟨Nat.le_refl _, Nat.le_refl _⟩

theorem Region.inside_antisymm
    {r s : Region}
    (hLeft : r.Inside s)
    (hRight : s.Inside r) :
    r = s := by
  rcases r with ⟨start, length⟩
  rcases s with ⟨start', length'⟩
  simp only [Region.Inside, Region.stop] at hLeft hRight
  rw [Region.mk.injEq]
  omega

namespace Separated

/- An address is in one region only. -/
theorem eq_of_has
    {rs : List Region}
    {r s : Region}
    {a : Nat}
    (hSeparated : Separated rs)
    (hR : r ∈ rs)
    (hS : s ∈ rs)
    (hHasR : r.Has a)
    (hHasS : s.Has a) :
    r = s := by
  unfold Region.Has at hHasR hHasS
  induction rs with
  | nil => cases hR
  | cons q rs ih =>
      rcases hSeparated.of_cons with ⟨-, hRest, hNext⟩
      rcases List.mem_cons.mp hR with rfl | hLaterR <;>
        rcases List.mem_cons.mp hS with rfl | hLaterS
      · rfl
      · have hBefore := hNext s hLaterS
        omega
      · have hBefore := hNext r hLaterR
        omega
      · exact ih hRest hLaterR hLaterS

/-
  A run of addresses that are all covered lies in one region,
  since the address after a region is not covered.
-/
theorem inside_of_covers
    {rs : List Region}
    {w : Region}
    (hSeparated : Separated rs)
    (hPos : 0 < w.length)
    (hCovers : ∀ a, w.Has a → Covers rs a) :
    ∃ r ∈ rs, w.Inside r := by
  have hStop : w.stop = w.start + w.length := rfl
  induction rs with
  | nil =>
      exact absurd (hCovers w.start ⟨Nat.le_refl _, by omega⟩) (covers_nil _)
  | cons r rs ih =>
      rcases (covers_cons r rs _).mp
          (hCovers w.start ⟨Nat.le_refl _, by omega⟩) with hFirst | hLater
      · refine ⟨r, List.mem_cons_self, hFirst.1, ?_⟩
        by_contra hBeyond
        have hEnd : w.Has r.stop := ⟨Nat.le_of_lt hFirst.2, by omega⟩
        rcases (covers_cons r rs _).mp (hCovers r.stop hEnd) with
          hHas | hCovered
        · exact Nat.lt_irrefl _ hHas.2
        · exact Nat.lt_irrefl _
            (hSeparated.covers_tail_iff.mp hCovered).2
      · have hAfter := (hSeparated.covers_tail_iff.mp hLater).2
        rcases ih hSeparated.of_cons.2.1 (fun a hHas =>
            hSeparated.covers_tail_iff.mpr
              ⟨hCovers a hHas, Nat.lt_of_lt_of_le hAfter hHas.1⟩) with
          ⟨s, hMem, hInside⟩
        exact ⟨s, List.mem_cons_of_mem r hMem, hInside⟩

end Separated

------------------------------------------------------------
-- Fits
------------------------------------------------------------

section Fit

variable {r : Region} {capacity size alignment : Nat}

theorem Region.fit?_eq_some_iff
    {a : Nat}
    (hUnwrapped : Count.Unwrapped capacity alignment)
    (hInside : r.stop ≤ capacity) :
    r.fit? size alignment = some a ↔
      IsLeast {b | Aligned alignment b ∧ r.start ≤ b} a ∧
        a + size ≤ r.stop := by
  have hLeast := isLeast_roundUp alignment r.start
  have hStart : r.start ≤ capacity := by
    simp only [Region.stop] at hInside
    omega
  simp only [Region.fit?, hUnwrapped.mulWrap_ceilDiv hStart]
  constructor
  · intro hFit
    split at hFit
    case isFalse => cases hFit
    case isTrue hStop =>
      cases hFit
      exact ⟨hLeast, hStop⟩
  · rintro ⟨hFirst, hStop⟩
    rw [hLeast.unique hFirst, if_pos hStop]

/- A region fits a request if any aligned address in it does. -/
theorem Region.fit?_isSome_of_holds
    (hHolds : r.Holds size alignment) :
    (r.fit? size alignment).isSome = true := by
  rcases hHolds with ⟨a, hAligned, hStart, hStop⟩
  have hLe := (isLeast_roundUp alignment r.start).2 ⟨hAligned, hStart⟩
  have hWrap :
      Count.mulWrap (Count.ceilDiv r.start (max alignment 1))
          (max alignment 1) ≤
        Count.roundUp r.start (max alignment 1) :=
    Nat.mod_le _ _
  have hFits :
      Count.mulWrap (Count.ceilDiv r.start (max alignment 1))
          (max alignment 1) + size ≤ r.stop := by
    simp only [Region.stop] at hStop ⊢
    omega
  simp only [Region.fit?]
  rw [if_pos hFits]
  rfl

end Fit

namespace FreeList

variable {l : FreeList}
variable {taken : List Region}
variable {size alignment : Nat}

theorem smallestFit_eq_none_iff
    {rs : List Region} :
    smallestFit size alignment rs = none ↔
      ∀ r ∈ rs, r.fit? size alignment = none := by
  induction rs with
  | nil => simp [smallestFit]
  | cons r rs ih =>
      rw [List.forall_mem_cons, ← ih]
      simp only [smallestFit]
      split
      case h_1 hNone => simp [hNone]
      case h_2 hSome hNone => simp [hSome]
      case h_3 hSome hLater =>
        rw [hSome]
        split <;> simp

/- A request that a free region can hold is placed. -/
theorem bestFit_isSome_of_holds
    {r : Region}
    (hMem : r ∈ l.regions)
    (hHolds : r.Holds size alignment) :
    (l.bestFit size alignment).isSome = true := by
  rw [bestFit, Option.isSome_map, Option.isSome_iff_ne_none]
  intro hNone
  have hFits := Region.fit?_isSome_of_holds hHolds
  rw [smallestFit_eq_none_iff.mp hNone r hMem] at hFits
  cases hFits

/- No region that fits is smaller, or as small and lower. -/
theorem smallestFit_le
    {rs : List Region}
    {r s : Region}
    {a : Nat}
    (hSeparated : Separated rs)
    (hFit : smallestFit size alignment rs = some (r, a))
    (hMem : s ∈ rs)
    (hFits : (s.fit? size alignment).isSome = true) :
    r.length < s.length ∨ r.length = s.length ∧ r.start ≤ s.start := by
  induction rs generalizing r a with
  | nil => cases hMem
  | cons q rs ih =>
      rcases hSeparated.of_cons with ⟨-, hRest, hNext⟩
      have hFirst : ∀ p ∈ rs, q.start ≤ p.start := by
        intro p hP
        have hBefore := hNext p hP
        unfold Region.stop at hBefore
        omega
      simp only [smallestFit] at hFit
      split at hFit
      case h_1 found hNone =>
        rcases List.mem_cons.mp hMem with rfl | hLater
        · simp [hNone] at hFits
        · exact ih hRest hFit hLater
      case h_2 here hHere hNone =>
        cases hFit
        rcases List.mem_cons.mp hMem with rfl | hLater
        · exact .inr ⟨rfl, Nat.le_refl _⟩
        · rw [smallestFit_eq_none_iff.mp hNone s hLater] at hFits
          cases hFits
      case h_3 here p later hHere hLater =>
        have hP := hFirst p (smallestFit_mem hLater).1
        split at hFit
        case isTrue hShorter =>
          cases hFit
          rcases List.mem_cons.mp hMem with rfl | hTail
          · exact .inr ⟨rfl, Nat.le_refl _⟩
          · have hS := hFirst s hTail
            rcases ih hRest hLater hTail with hLess | ⟨hSame, -⟩
            · exact .inl (by omega)
            · omega
        case isFalse hLonger =>
          cases hFit
          rcases List.mem_cons.mp hMem with rfl | hTail
          · exact .inl (by omega)
          · exact ih hRest hLater hTail

------------------------------------------------------------
-- Free Regions as Gaps
------------------------------------------------------------

namespace Shares

/- Free regions and regions in use lie apart. -/
theorem pairwise_append
    (hShares : l.Shares taken) :
    (l.regions ++ taken).Pairwise (fun r s => ¬ r.Overlaps s) := by
  refine List.pairwise_append.mpr ⟨?_, hShares.apart, ?_⟩
  · refine hShares.sound.apart.imp ?_
    intro r s hBefore hOverlaps
    unfold Region.Overlaps at hOverlaps
    omega
  · intro r hR s hS hOverlaps
    rcases hShares.within s hS with ⟨hPos, hStop⟩
    have hRoom : 0 < l.capacity := by
      unfold Region.stop at hStop
      omega
    rcases Region.exists_has_of_overlaps (hShares.sound.pos hRoom r hR)
        hPos hOverlaps with ⟨a, hHas, hTaken⟩
    exact hShares.taken s hS a hTaken ⟨r, hR, hHas⟩

section

variable (hShares : l.Shares taken)
include hShares

/- An address of the memory is free unless it is in use. -/
theorem free_iff
    (a : Nat) :
    l.Free a ↔ a < l.capacity ∧ ∀ r ∈ taken, ¬ r.Has a := by
  constructor
  · rintro ⟨r, hMem, hHas⟩
    refine ⟨Nat.lt_of_lt_of_le hHas.2 (hShares.sound.inside r hMem), ?_⟩
    intro s hS hTaken
    exact hShares.taken s hS a hTaken ⟨r, hMem, hHas⟩
  · rintro ⟨hBelow, hUnused⟩
    have hOne : Partitions (l.regions ++ taken) l.capacity := by
      refine partitions_of_extent hShares.pairwise_append ?_ ?_
      · intro r hMem
        rcases List.mem_append.mp hMem with hFree | hTaken
        · exact hShares.sound.inside r hFree
        · exact (hShares.within r hTaken).2
      · rw [extent_append]
        exact hShares.counted
    have hSome := hOne a
    have hNone : taken.countP (fun r => r.Has a) = 0 := by
      rw [List.countP_eq_zero]
      intro r hMem hHas
      exact hUnused r hMem (of_decide_eq_true hHas)
    rw [if_pos hBelow, List.countP_append, hNone] at hSome
    have hPos : 0 < l.regions.countP (fun r => r.Has a) := by omega
    rcases List.countP_pos_iff.mp hPos with ⟨r, hMem, hHas⟩
    exact ⟨r, hMem, of_decide_eq_true hHas⟩

/- Clear regions are the parts of free regions. -/
theorem clear_iff
    {w : Region}
    (hRoom : 0 < l.capacity)
    (hPos : 0 < w.length) :
    Clear l.capacity taken w ↔ ∃ r ∈ l.regions, w.Inside r := by
  constructor
  · rintro ⟨hBelow, hApart⟩
    refine (hShares.sound.separated hRoom).inside_of_covers hPos ?_
    intro a hHas
    refine (hShares.free_iff a).mpr ⟨Nat.lt_of_lt_of_le hHas.2 hBelow, ?_⟩
    intro s hMem hTaken
    exact hApart s hMem (Region.overlaps_of_has hHas hTaken)
  · rintro ⟨r, hMem, hStart, hEnd⟩
    refine ⟨Nat.le_trans hEnd (hShares.sound.inside r hMem), ?_⟩
    intro s hS hOverlaps
    rcases Region.exists_has_of_overlaps hPos (hShares.within s hS).1
        hOverlaps with ⟨a, hHas, hTaken⟩
    exact hShares.taken s hS a hTaken
      ⟨r, hMem, Nat.le_trans hStart hHas.1, Nat.lt_of_lt_of_le hHas.2 hEnd⟩

/- The free regions are the gaps. -/
theorem gap_iff
    {g : Region}
    (hRoom : 0 < l.capacity) :
    Gap l.capacity taken g ↔ g ∈ l.regions := by
  have hSeparated := hShares.sound.separated hRoom
  constructor
  · intro hGap
    rcases (hShares.clear_iff hRoom hGap.pos).mp hGap.clear with
      ⟨r, hMem, hInside⟩
    have hClear : Clear l.capacity taken r :=
      (hShares.clear_iff hRoom (hSeparated.pos r hMem)).mpr
        ⟨r, hMem, r.inside_refl⟩
    exact hGap.maximal r hClear hInside ▸ hMem
  · intro hMem
    have hPos := hSeparated.pos g hMem
    have hStop : g.stop = g.start + g.length := rfl
    refine ⟨hPos, (hShares.clear_iff hRoom hPos).mpr
      ⟨g, hMem, g.inside_refl⟩, ?_⟩
    intro h hClear hInside
    have hLonger : 0 < h.length := by
      simp only [Region.Inside, Region.stop] at hInside
      omega
    rcases (hShares.clear_iff hRoom hLonger).mp hClear with ⟨r, hR, hPart⟩
    have hStart : r.Has g.start := by
      simp only [Region.Inside, Region.Has, Region.stop] at hInside hPart ⊢
      omega
    have hSame : r = g :=
      hSeparated.eq_of_has hR hMem hStart ⟨Nat.le_refl _, by omega⟩
    exact Region.inside_antisymm (hSame ▸ hPart) hInside

/- A request that has a place is placed. -/
theorem bestFit_isSome_of_hasPlace
    (hRoom : 0 < l.capacity)
    (hSize : 0 < size)
    (hPlace : HasPlace l.capacity taken size alignment) :
    (l.bestFit size alignment).isSome = true := by
  rcases hPlace with ⟨a, hAligned, hClear⟩
  rcases (hShares.clear_iff hRoom hSize).mp hClear with
    ⟨r, hMem, hInside⟩
  exact bestFit_isSome_of_holds hMem ⟨a, hAligned, hInside⟩

/- A request is placed if there is any place for it. -/
theorem bestFit_isSome_iff
    (hUnwrapped : Count.Unwrapped l.capacity alignment)
    (hRoom : 0 < l.capacity)
    (hSize : 0 < size) :
    (l.bestFit size alignment).isSome = true ↔
      HasPlace l.capacity taken size alignment := by
  refine ⟨?_, hShares.bestFit_isSome_of_hasPlace hRoom hSize⟩
  intro hSome
  rcases Option.isSome_iff_exists.mp hSome with ⟨address, hFit⟩
  rcases Option.map_eq_some_iff.mp hFit with ⟨⟨r, a⟩, hFound, rfl⟩
  rcases smallestFit_mem hFound with ⟨hMem, hFits⟩
  rcases (Region.fit?_eq_some_iff hUnwrapped
      (hShares.sound.inside r hMem)).mp hFits with ⟨hFirst, hStop⟩
  exact ⟨a, hFirst.1.1, (hShares.clear_iff hRoom hSize).mpr
    ⟨r, hMem, hFirst.1.2, hStop⟩⟩

/- A request is placed at the best place, which suits it. -/
theorem bestFit_best
    {a : Nat}
    (hUnwrapped : Count.Unwrapped l.capacity alignment)
    (hRoom : 0 < l.capacity)
    (hSize : 0 < size)
    (hFit : l.bestFit size alignment = some a) :
    Suits l.capacity taken size alignment a ∧
      BestPlace l.capacity taken size alignment a := by
  rcases Option.map_eq_some_iff.mp hFit with ⟨⟨r, address⟩, hFound, rfl⟩
  rcases smallestFit_mem hFound with ⟨hMem, hFits⟩
  rcases (Region.fit?_eq_some_iff hUnwrapped
      (hShares.sound.inside r hMem)).mp hFits with ⟨hFirst, hStop⟩
  refine ⟨⟨hFirst.1.1, (hShares.clear_iff hRoom hSize).mpr
    ⟨r, hMem, hFirst.1.2, hStop⟩⟩, r, (hShares.gap_iff hRoom).mpr hMem,
    hFirst, hStop, ?_⟩
  intro h hGap hHolds
  exact smallestFit_le (hShares.sound.separated hRoom) hFound
    ((hShares.gap_iff hRoom).mp hGap) (Region.fit?_isSome_of_holds hHolds)

end

end Shares

end FreeList

end Systolic
