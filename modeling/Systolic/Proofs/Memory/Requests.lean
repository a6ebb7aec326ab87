import Mathlib.Algebra.BigOperators.Group.Finset.Piecewise
import Mathlib.Algebra.Order.BigOperators.Group.Finset
import Mathlib.Order.Interval.Finset.Nat
import Systolic.Proofs.Memory.Actions

/-
  This file proves what holds of the memories on the chip after
  any requests, answered or refused, as long as no pinned tensor
  is released: free regions and tensors share out each memory,
  the history has an open entry for each tensor on the chip, and
  the peaks are the most that was ever in use.

  Key definitions include:
    * `Partitions`
    * `Memory.Request`
    * `Memory.Permits`
    * `Memory.Orderly`

  Key theorems include:
    * `Memory.Stable.follows_serve`
    * `Memory.Stable.runs_serveAll`
    * `Memory.orderly_serveAll`
-/

namespace Systolic

------------------------------------------------------------
-- Partitions
------------------------------------------------------------

instance
    (r : Region)
    (a : Nat) :
    Decidable (r.Has a) := by
  unfold Region.Has
  infer_instance

/-
  Each address below a bound is in exactly one of several
  regions, and no other address is in any.
-/
def Partitions
    (rs : List Region)
    (bound : Nat) : Prop :=
  ∀ a, rs.countP (fun r => r.Has a) = if a < bound then 1 else 0

/- An address is in at most one of several regions that lie apart. -/
theorem countP_has_le_one
    {rs : List Region}
    (hApart : rs.Pairwise (fun r s => ¬ r.Overlaps s))
    (a : Nat) :
    rs.countP (fun r => r.Has a) ≤ 1 := by
  induction rs with
  | nil => exact Nat.zero_le 1
  | cons r rs ih =>
      rcases List.pairwise_cons.mp hApart with ⟨hFirst, hRest⟩
      rw [List.countP_cons]
      by_cases hHas : r.Has a
      · have hNone : rs.countP (fun r => r.Has a) = 0 := by
          rw [List.countP_eq_zero]
          intro s hMem hOther
          exact hFirst s hMem
            (Region.overlaps_of_has hHas (of_decide_eq_true hOther))
        simp [hNone, hHas]
      · simpa [hHas] using ih hRest

/- The addresses of regions below a bound, counted region by region. -/
theorem sum_countP_has
    {rs : List Region}
    {bound : Nat}
    (hInside : ∀ r ∈ rs, r.stop ≤ bound) :
    ∑ a ∈ Finset.range bound, rs.countP (fun r => r.Has a) =
      extent rs := by
  induction rs with
  | nil => simp
  | cons r rs ih =>
      have hStop := hInside r List.mem_cons_self
      have hOwn :
          (Finset.range bound).filter (fun a => r.Has a) =
            Finset.Ico r.start r.stop := by
        ext a
        rw [Finset.mem_filter, Finset.mem_range, Finset.mem_Ico]
        unfold Region.Has
        omega
      have hCount :
          ∑ a ∈ Finset.range bound, (if r.Has a then 1 else 0) =
            r.length := by
        rw [← Finset.card_filter, hOwn, Nat.card_Ico, Region.stop]
        omega
      have hRest := ih (fun s hMem => hInside s (List.mem_cons_of_mem r hMem))
      simp only [List.countP_cons, decide_eq_true_eq]
      rw [Finset.sum_add_distrib, hRest, hCount, extent_cons, Nat.add_comm]

/-
  Regions that lie apart below a bound, and have as many
  addresses as there are, leave no address out.
-/
theorem partitions_of_extent
    {rs : List Region}
    {bound : Nat}
    (hApart : rs.Pairwise (fun r s => ¬ r.Overlaps s))
    (hInside : ∀ r ∈ rs, r.stop ≤ bound)
    (hExtent : extent rs = bound) :
    Partitions rs bound := by
  intro a
  split
  case isTrue hBelow =>
    have hSum :
        ∑ a ∈ Finset.range bound, rs.countP (fun r => r.Has a) =
          ∑ _a ∈ Finset.range bound, 1 := by
      rw [sum_countP_has hInside, hExtent, ← Finset.card_eq_sum_ones,
        Finset.card_range]
    have hEach := (Finset.sum_eq_sum_iff_of_le
      (fun a _ => countP_has_le_one hApart a)).mp hSum
    exact hEach a (Finset.mem_range.mpr hBelow)
  case isFalse hAbove =>
    rw [List.countP_eq_zero]
    intro r hMem hHas
    have hStop := hInside r hMem
    have hBetween := of_decide_eq_true hHas
    unfold Region.Has at hBetween
    omega

namespace Memory

variable {kind : MemoryKind}

/- Sums start from the literal zero. -/
attribute [local instance (high)] Zero.ofOfNat0

------------------------------------------------------------
-- Requests
------------------------------------------------------------

/- What the memories can be asked to do. -/
inductive Request where
| allocate
    (t : TensorId)
    (name : String)
    (layout : VectorLayout)
    (kind : MemoryKind)
| free (t : TensorId)
| spill (t : TensorId)
| pin (t : TensorId)
| unpin (t : TensorId)
| setNextUse (t : TensorId) (nextUse : Option Nat)
| setClock (position : Nat)

/- The memories that an action leaves, also when it fails. -/
def leftBy
    {α : Type}
    (m : Memory)
    (action : Action α) : Memory :=
  match action m with
  | .ok _ m' => m'
  | .error _ m' => m'

/- The memories after a request. -/
def serve
    (m : Memory) : Request → Memory
| .allocate t name layout kind => m.leftBy (allocate t name layout kind)
| .free t => m.leftBy (free t)
| .spill t => m.leftBy (spill t)
| .pin t => m.leftBy (pin t)
| .unpin t => m.leftBy (unpin t)
| .setNextUse t nextUse => m.setNextUse t nextUse
| .setClock position => m.setClock position

/- A tensor is not pinned. -/
def Unpinned
    (m : Memory)
    (t : TensorId) : Prop :=
  ∀ r ∈ m.residents, r.tensor = t → r.pins = 0

/- A request does not release a pinned tensor. -/
def Permits
    (m : Memory) : Request → Prop
| .free t => m.Unpinned t
| .spill t => m.Unpinned t
| _ => True

/- No request of several in a row releases a pinned tensor. -/
def PermitsAll
    (m : Memory) : List Request → Prop
| [] => True
| r :: rs => m.Permits r ∧ (m.serve r).PermitsAll rs

instance
    (m : Memory)
    (t : TensorId) :
    Decidable (m.Unpinned t) := by
  unfold Unpinned
  infer_instance

instance
    (m : Memory)
    (r : Request) :
    Decidable (m.Permits r) := by
  cases r <;> unfold Permits <;> infer_instance

instance decidablePermitsAll
    (m : Memory) :
    (rs : List Request) → Decidable (m.PermitsAll rs)
| [] => isTrue trivial
| r :: rs =>
    have := decidablePermitsAll (m.serve r) rs
    inferInstanceAs (Decidable (m.Permits r ∧ (m.serve r).PermitsAll rs))

/- The memories after several requests. -/
def serveAll
    (m : Memory)
    (rs : List Request) : Memory :=
  rs.foldl serve m

/- The memories before, between and after several requests. -/
def states
    (m : Memory) : List Request → List Memory
| [] => [m]
| r :: rs => m :: (m.serve r).states rs

------------------------------------------------------------
-- One Request
------------------------------------------------------------

/- Memories that are sound for some pins, under their peaks. -/
def Stable (m : Memory) : Prop :=
  (∃ pins, m.Sound pins) ∧ m.Peaked

/-
  Sound memories of the same capacities, whose peaks were raised
  to what is in use.
-/
structure Follows (m m' : Memory) : Prop where
  sound : ∃ pins, m'.Sound pins
  capacity : ∀ kind, m'.capacity kind = m.capacity kind
  peak : ∀ kind, m'.stats.peak kind = max (m.stats.peak kind) (m'.used kind)

variable {m : Memory} {pins : List TensorId} {t : TensorId}

theorem Follows.stable
    {m' : Memory}
    (hFollows : m.Follows m') :
    m'.Stable := by
  refine ⟨hFollows.sound, ?_⟩
  intro kind
  rw [hFollows.peak kind]
  exact Nat.le_max_right _ _

theorem Stable.follows_refl
    (hStable : m.Stable) :
    m.Follows m :=
  ⟨hStable.1, fun _ => rfl,
    fun _ => peak_eq_max hStable.2 rfl (Nat.le_refl _)⟩

/-
  An action that leaves the memories as they are when it fails,
  and sound when it does not.
-/
theorem Stable.follows_leftBy
    {α : Type}
    {action : Action α}
    (hStable : m.Stable)
    (hError : ∀ e m', action m = .error e m' → m' = m)
    (hOk :
      ∀ a m', action m = .ok a m' →
        (∃ pins, m'.Sound pins) ∧ m.Keeps m') :
    m.Follows (m.leftBy action) := by
  unfold leftBy
  cases hRun : action m with
  | ok a m' =>
      rcases hOk a m' hRun with ⟨hSound, hKeeps⟩
      exact ⟨hSound, hKeeps.capacity, hKeeps.peak hStable.2⟩
  | error e m' =>
      rw [hError e m' hRun]
      exact hStable.follows_refl

/- A request for room that fails changes nothing. -/
theorem allocate_error
    {name : String}
    {layout : VectorLayout}
    {e : MemoryError}
    {m' : Memory}
    (hRun : allocate t name layout kind m = .error e m') :
    m' = m := by
  unfold allocate at hRun
  by_cases hResident : m.IsResident t
  · rw [if_pos hResident] at hRun
    cases hRun
    rfl
  rw [if_neg hResident] at hRun
  by_cases hSize : layout.depth = 0 ∨ m.capacity kind < layout.depth
  · rw [if_pos hSize] at hRun
    cases hRun
    rfl
  rw [if_neg hSize] at hRun
  cases hFit : (m.freeList kind).bestFit layout.depth layout.alignment with
  | some address =>
      simp only [hFit, place] at hRun
      cases hReserve :
          (m.freeList kind).reserve?
            { start := address, length := layout.depth } with
      | none =>
          rw [hReserve] at hRun
          cases hRun
          rfl
      | some l =>
          rw [hReserve] at hRun
          cases hRun
  | none =>
      simp only [hFit] at hRun
      cases hVictims :
          m.victims? kind layout.depth layout.alignment with
      | none =>
          rw [hVictims] at hRun
          cases hRun
          rfl
      | some victims =>
          rw [hVictims] at hRun
          cases hRun

theorem Stable.follows_allocate
    (hStable : m.Stable)
    (t : TensorId)
    (name : String)
    (layout : VectorLayout)
    (kind : MemoryKind) :
    m.Follows (m.leftBy (allocate t name layout kind)) := by
  rcases hStable.1 with ⟨pins, hSound⟩
  refine hStable.follows_leftBy (fun _ _ => allocate_error) ?_
  intro result m' hRun
  by_cases hResident : m.IsResident t
  · unfold allocate at hRun
    rw [if_pos hResident] at hRun
    cases hRun
  · rcases (allocate_ensures hSound hResident).of_ok hRun with
      ⟨address, -, hSound', hKeeps, -⟩ | ⟨victims, -, rfl, -⟩
    · exact ⟨⟨pins, hSound'⟩, hKeeps⟩
    · exact ⟨⟨pins, hSound⟩, rfl, fun _ => rfl, fun hPeaked _ =>
        peak_eq_max hPeaked rfl (Nat.le_refl _)⟩

theorem Sound.not_mem_pins
    (hSound : m.Sound pins)
    (hResident : m.IsResident t)
    (hUnpinned : m.Unpinned t) :
    t ∉ pins := by
  rcases isResident_iff_mem.mp hResident with ⟨r, hMem, rfl⟩
  exact (hSound.pins_eq_zero_iff hMem).mp (hUnpinned r hMem rfl)

theorem release_of_absent
    (spilled : Bool)
    (hAbsent : ¬ m.IsResident t) :
    release t spilled m = .error (.invariant (.notAllocated t)) m := by
  unfold release
  rw [Option.not_isSome_iff_eq_none.mp hAbsent]
  rfl

theorem Stable.follows_free
    (hStable : m.Stable)
    (hUnpinned : m.Unpinned t) :
    m.Follows (m.leftBy (free t)) := by
  rcases hStable.1 with ⟨pins, hSound⟩
  by_cases hResident : m.IsResident t
  · have hRelease := release_ensures (E := fun _ => False) false hSound
      hResident (hSound.not_mem_pins hResident hUnpinned)
    refine hStable.follows_leftBy ?_ ?_
    · intro e m' hRun
      exact (hRelease.of_error hRun).elim
    · intro b m' hRun
      rcases hRelease.of_ok hRun with ⟨hSound', hKeeps, -⟩
      exact ⟨⟨pins, hSound'⟩, hKeeps⟩
  · unfold leftBy free
    rw [release_of_absent false hResident]
    exact hStable.follows_refl

theorem Stable.follows_spill
    (hStable : m.Stable)
    (hUnpinned : m.Unpinned t) :
    m.Follows (m.leftBy (spill t)) := by
  rcases hStable.1 with ⟨pins, hSound⟩
  cases hBinding : m.binding? t with
  | none =>
      have hAbsent : ¬ m.IsResident t := by
        unfold IsResident
        unfold binding? at hBinding
        simp [Option.map_eq_none_iff.mp hBinding]
      unfold leftBy spill
      rw [hBinding, release_of_absent true hAbsent]
      exact hStable.follows_refl
  | some b =>
      rcases hSound.binding?_eq_some.mp hBinding with
        ⟨hMem, hTensor, hOpen⟩
      cases hKind : b.kind with
      | accumulator =>
          unfold leftBy spill
          rw [hBinding, Option.any_some, if_pos (decide_eq_true hKind)]
          exact hStable.follows_refl
      | scratchpad =>
          have hResident :=
            hSound.isResident_iff.mpr ⟨b, hMem, hTensor, hOpen⟩
          have hSpill := spill_ensures (E := fun _ => False) hSound
            ⟨hSound.not_mem_pins hResident hUnpinned,
              b, hMem, hTensor, hOpen, hKind⟩
          refine hStable.follows_leftBy ?_ ?_
          · intro e m' hRun
            exact (hSpill.of_error hRun).elim
          · intro c m' hRun
            rcases hSpill.of_ok hRun with ⟨hSound', hKeeps, -⟩
            exact ⟨⟨pins, hSound'⟩, hKeeps⟩

/- A pin that cannot be counted takes all pins of the tensor back. -/
theorem pin_wraps
    {E : MemoryError → Prop}
    (hSound : m.Sound pins)
    (hResident : m.IsResident t)
    (hUncounted : ¬ (t :: pins).count t < UInt32.size) :
    Ensures (pin t) m E
      (fun _ m' => m'.Sound (pins.filter (· ≠ t)) ∧ m.Keeps m' ∧
        m'.history = m.history) := by
  unfold Ensures pin
  rw [if_pos hResident]
  refine hSound.repin hResident (· + 1) ?_ ?_
  · -- The count was the largest that a word can hold.
    intro n hOld
    have hSmall := n.toNat_lt_size
    have hNone : t ∉ pins.filter (· ≠ t) := by simp
    rw [List.count_cons_self] at hUncounted
    rw [List.count_eq_zero.mpr hNone, UInt32.toNat_add]
    simp only [UInt32.size, UInt32.reduceToNat] at *
    omega
  · exact fun u hOther => List.count_filter (by simpa using hOther)

theorem Stable.follows_pin
    (hStable : m.Stable)
    (t : TensorId) :
    m.Follows (m.leftBy (pin t)) := by
  rcases hStable.1 with ⟨pins, hSound⟩
  by_cases hResident : m.IsResident t
  · have hPin :
        Ensures (pin t) m (fun _ => False)
          (fun _ m' => (∃ pins', m'.Sound pins') ∧ m.Keeps m') := by
      by_cases hCounted : (t :: pins).count t < UInt32.size
      · exact (pin_ensures hSound hResident hCounted).weaken
          (fun _ _ hAfter => ⟨⟨_, hAfter.1⟩, hAfter.2.1⟩)
      · exact (pin_wraps hSound hResident hCounted).weaken
          (fun _ _ hAfter => ⟨⟨_, hAfter.1⟩, hAfter.2.1⟩)
    refine hStable.follows_leftBy ?_ (fun u m' hRun => hPin.of_ok hRun)
    intro e m' hRun
    exact (hPin.of_error hRun).elim
  · unfold leftBy pin
    rw [if_neg hResident]
    exact hStable.follows_refl

theorem Stable.follows_unpin
    (hStable : m.Stable)
    (t : TensorId) :
    m.Follows (m.leftBy (unpin t)) := by
  rcases hStable.1 with ⟨pins, hSound⟩
  by_cases hPinned : (m.resident? t).any (fun r => 0 < r.pins) = true
  · rcases Option.any_eq_true_iff_get _ _ |>.mp hPinned with ⟨hSome, hPins⟩
    rcases hSound.resident?_eq_some.mp (Option.some_get hSome).symm with
      ⟨hMem, hTensor⟩
    have hPin : t ∈ pins := by
      have hCount := UInt32.lt_iff_toNat_lt.mp (of_decide_eq_true hPins)
      rw [hSound.pinned _ hMem, hTensor] at hCount
      exact List.count_pos_iff.mp hCount
    have hUnpin := unpin_ensures (E := fun _ => False)
      (hSound.perm (List.perm_cons_erase hPin))
    refine hStable.follows_leftBy ?_ ?_
    · intro e m' hRun
      exact (hUnpin.of_error hRun).elim
    · intro u m' hRun
      rcases hUnpin.of_ok hRun with ⟨hSound', hKeeps, -⟩
      exact ⟨⟨pins.erase t, hSound'⟩, hKeeps⟩
  · unfold leftBy unpin
    rw [if_neg hPinned]
    exact hStable.follows_refl

/- What one request does to sound memories. -/
theorem Stable.follows_serve
    {r : Request}
    (hStable : m.Stable)
    (hPermits : m.Permits r) :
    m.Follows (m.serve r) := by
  cases r with
  | allocate t name layout kind =>
      exact hStable.follows_allocate t name layout kind
  | free t => exact hStable.follows_free hPermits
  | spill t => exact hStable.follows_spill hPermits
  | pin t => exact hStable.follows_pin t
  | unpin t => exact hStable.follows_unpin t
  | setNextUse t nextUse =>
      rcases hStable.1 with ⟨pins, hSound⟩
      exact ⟨⟨pins, hSound.setNextUse nextUse⟩, fun _ => rfl,
        fun _ => peak_eq_max hStable.2 rfl (Nat.le_refl _)⟩
  | setClock position =>
      rcases hStable.1 with ⟨pins, hSound⟩
      exact ⟨⟨pins, hSound.setClock position⟩, fun _ => rfl,
        fun _ => peak_eq_max hStable.2 rfl (Nat.le_refl _)⟩

------------------------------------------------------------
-- Several Requests
------------------------------------------------------------

/- What is in use is never more than there is. -/
theorem used_le_capacity
    (m : Memory)
    (kind : MemoryKind) :
    m.used kind ≤ m.capacity kind :=
  Nat.sub_le _ _

/-
  Memories that others become by several requests: their peaks
  are the most that was in use in a list of states, or what they
  were before.
-/
structure Runs
    (m : Memory)
    (states : List Memory)
    (m' : Memory) : Prop where
  sound : ∃ pins, m'.Sound pins
  capacity : ∀ kind, m'.capacity kind = m.capacity kind
  limited : ∀ kind, ∀ s ∈ states, s.used kind ≤ m.capacity kind
  start_le : ∀ kind, m.stats.peak kind ≤ m'.stats.peak kind
  used_le : ∀ kind, ∀ s ∈ states, s.used kind ≤ m'.stats.peak kind
  reached :
    ∀ kind, m'.stats.peak kind = m.stats.peak kind ∨
      ∃ s ∈ states, s.used kind = m'.stats.peak kind

/- What several requests do to sound memories. -/
theorem Stable.runs_serveAll
    {rs : List Request}
    (hStable : m.Stable)
    (hPermits : m.PermitsAll rs) :
    m.Runs (m.states rs) (m.serveAll rs) := by
  induction rs generalizing m with
  | nil =>
      refine ⟨hStable.1, fun _ => rfl, ?_, fun _ => Nat.le_refl _, ?_,
        fun _ => .inl rfl⟩
      · intro kind s hMem
        rcases List.mem_singleton.mp hMem with rfl
        exact s.used_le_capacity kind
      · intro kind s hMem
        rcases List.mem_singleton.mp hMem with rfl
        exact hStable.2 kind
  | cons r rs ih =>
      rcases hPermits with ⟨hFirst, hRest⟩
      have hFollows := hStable.follows_serve hFirst
      have hRuns := ih hFollows.stable hRest
      have hStart :
          ∀ kind, m.stats.peak kind ≤
            ((m.serve r).serveAll rs).stats.peak kind := by
        intro kind
        have hPeak := hFollows.peak kind
        have hLater := hRuns.start_le kind
        omega
      constructor
      case sound => exact hRuns.sound
      case capacity =>
        intro kind
        exact (hRuns.capacity kind).trans (hFollows.capacity kind)
      case limited =>
        intro kind s hMem
        rcases List.mem_cons.mp hMem with rfl | hMem
        · exact s.used_le_capacity kind
        · exact hFollows.capacity kind ▸ hRuns.limited kind s hMem
      case start_le => exact hStart
      case used_le =>
        intro kind s hMem
        rcases List.mem_cons.mp hMem with rfl | hMem
        · exact Nat.le_trans (hStable.2 kind) (hStart kind)
        · exact hRuns.used_le kind s hMem
      case reached =>
        intro kind
        rcases hRuns.reached kind with hSame | ⟨s, hMem, hUsed⟩
        · -- The peak is that after the first request.
          rcases Nat.le_total (m.stats.peak kind) ((m.serve r).used kind)
            with hRaised | hKept
          · refine .inr ⟨m.serve r, List.mem_cons_of_mem m ?_, ?_⟩
            · cases rs <;> exact List.mem_cons_self
            · exact (hSame.trans
                ((hFollows.peak kind).trans (Nat.max_eq_right hRaised))).symm
          · exact .inl (hSame.trans
              ((hFollows.peak kind).trans (Nat.max_eq_left hKept)))
        · exact .inr ⟨s, List.mem_cons_of_mem m hMem, hUsed⟩

------------------------------------------------------------
-- Orderly Memories
------------------------------------------------------------

/-
  What is wanted of memories with given capacities that were in
  the listed states so far.
-/
structure Orderly
    (m : Memory)
    (capacity : MemoryKind → Nat)
    (states : List Memory) : Prop where
  sorted :
    ∀ kind, (m.freeList kind).regions.Pairwise
      (fun r s => r.stop < s.start)
  filled :
    ∀ kind, 0 < capacity kind →
      ∀ r ∈ (m.freeList kind).regions, 0 < r.length
  shared :
    ∀ kind, Partitions
      ((m.freeList kind).regions ++ (m.live kind).map Binding.region)
      (capacity kind)
  distinct : (m.residents.map Resident.tensor).Nodup
  recorded :
    (m.residents.map (fun r => (r.binding, r.entry))).Perm
      (m.history.zipIdx.filter (fun e => e.1.releasedAt = none))
  used_eq : ∀ kind, m.used kind = ((m.live kind).map Binding.size).sum
  used_le : ∀ kind, ∀ s ∈ states, s.used kind ≤ m.stats.peak kind
  reached : ∀ kind, ∃ s ∈ states, s.used kind = m.stats.peak kind
  peak_le : ∀ kind, m.stats.peak kind ≤ capacity kind
  audited : m.audit = .ok ()

theorem mem_live
    {b : Binding} :
    b ∈ m.live kind ↔ (∃ r ∈ m.residents, r.binding = b) ∧ b.kind = kind := by
  rw [live, (sortBy_perm _ _).mem_iff, List.mem_filter, List.mem_map,
    decide_eq_true_iff]

/- Free regions and present bindings share out each memory. -/
theorem Sound.partitions
    (hSound : m.Sound pins)
    (kind : MemoryKind) :
    Partitions
      ((m.freeList kind).regions ++ (m.live kind).map Binding.region)
      (m.capacity kind) := by
  have hFree := hSound.lists kind
  apply partitions_of_extent
  · rw [List.pairwise_append]
    refine ⟨?_, List.pairwise_map.mpr (hSound.live_apart kind), ?_⟩
    · refine hFree.apart.imp ?_
      intro r s hBefore hOverlaps
      unfold Region.Overlaps at hOverlaps
      omega
    · intro r hR s hS hOverlaps
      rcases List.mem_map.mp hS with ⟨b, hB, rfl⟩
      rcases mem_live.mp hB with ⟨⟨resident, hMem, rfl⟩, rfl⟩
      have hInside := hSound.resident_inside hMem
      have hRoom : 0 < m.capacity resident.binding.kind := by
        have hStop :
            resident.binding.region.stop =
              resident.binding.address + resident.binding.size := rfl
        omega
      rcases Region.exists_has_of_overlaps (hFree.pos hRoom r hR)
          hInside.1 hOverlaps with ⟨a, hHas, hTaken⟩
      exact hSound.taken resident hMem a hTaken ⟨r, hR, hHas⟩
  · intro r hMem
    rcases List.mem_append.mp hMem with hMem | hMem
    · exact hFree.inside r hMem
    · rcases List.mem_map.mp hMem with ⟨b, hB, rfl⟩
      rcases mem_live.mp hB with ⟨⟨resident, hResident, rfl⟩, rfl⟩
      exact (hSound.resident_inside hResident).2
  · have hCount := hSound.counted kind
    have hUsed := hSound.sum_live kind
    have hLengths :
        (((m.live kind).map Binding.region).map (·.length)).sum =
          ((m.live kind).map (·.size)).sum := by
      rw [List.map_map]
      rfl
    unfold extent at hCount ⊢
    rw [List.map_append, List.sum_append, hLengths, hUsed]
    unfold used FreeList.used
    unfold capacity at hCount ⊢
    omega

/- An address is free if no tensor on the chip has it. -/
theorem Sound.free_iff
    (hSound : m.Sound pins)
    (a : Nat) :
    (m.freeList kind).Free a ↔
      a < m.capacity kind ∧
        ∀ r ∈ m.residents, r.binding.kind = kind →
          ¬ r.binding.region.Has a := by
  constructor
  · rintro ⟨region, hMem, hHas⟩
    have hStop := (hSound.lists kind).inside region hMem
    refine ⟨?_, ?_⟩
    · unfold Region.Has at hHas
      unfold capacity
      omega
    · rintro r hR rfl hTaken
      exact hSound.taken r hR a hTaken ⟨region, hMem, hHas⟩
  · rintro ⟨hBelow, hApart⟩
    have hOne := hSound.partitions kind a
    have hLive :
        ((m.live kind).map Binding.region).countP (fun r => r.Has a) =
          0 := by
      rw [List.countP_eq_zero]
      intro region hMem hHas
      rcases List.mem_map.mp hMem with ⟨b, hB, rfl⟩
      rcases mem_live.mp hB with ⟨⟨r, hR, rfl⟩, hKind⟩
      exact hApart r hR hKind (of_decide_eq_true hHas)
    rw [if_pos hBelow, List.countP_append, hLive] at hOne
    have hSome :
        0 < (m.freeList kind).regions.countP (fun r => r.Has a) := by
      omega
    rcases List.countP_pos_iff.mp hSome with ⟨region, hMem, hHas⟩
    exact ⟨region, hMem, of_decide_eq_true hHas⟩

/- Tensors on the chip and open entries of the history match. -/
theorem Sound.recorded_perm
    (hSound : m.Sound pins) :
    (m.residents.map (fun r => (r.binding, r.entry))).Perm
      (m.history.zipIdx.filter (fun e => e.1.releasedAt = none)) := by
  have hResidents : m.residents.Nodup := hSound.distinct.of_map _
  have hLeft :
      (m.residents.map (fun r => (r.binding, r.entry))).Nodup := by
    refine (List.nodup_map_iff_inj_on hResidents).mpr ?_
    intro r hR s hS hSame
    exact hSound.eq_of_tensor hR hS
      (congrArg (fun e => e.1.tensor) hSame)
  have hRight :
      (m.history.zipIdx.filter (fun e => e.1.releasedAt = none)).Nodup :=
    (List.Nodup.of_map Prod.snd (by
      rw [List.zipIdx_map_snd]
      exact List.nodup_range')).filter _
  refine (List.perm_ext_iff_of_nodup hLeft hRight).mpr ?_
  rintro ⟨b, i⟩
  rw [List.mem_map, List.mem_filter, List.mem_zipIdx_iff_getElem?,
    decide_eq_true_iff]
  constructor
  · intro hMem
    rcases hMem with ⟨r, hR, hSame⟩
    cases hSame
    exact hSound.recorded r hR
  · intro hEntry
    rcases hEntry with ⟨hGet, hOpen⟩
    rcases hSound.present i b hGet hOpen with ⟨r, hR, rfl⟩
    refine ⟨r, hR, ?_⟩
    rw [Option.some.inj ((hSound.recorded r hR).1.symm.trans hGet)]

theorem stable_empty
    (localDepth accumulatorDepth : Nat) :
    (empty localDepth accumulatorDepth).Stable := by
  refine ⟨⟨[], sound_empty localDepth accumulatorDepth⟩, ?_⟩
  intro kind
  cases kind <;> simp [empty, used, freeList, FreeList.used, FreeList.full]

/-
  Memories that start without tensors are orderly after any
  requests that release no pinned tensor.
-/
theorem orderly_serveAll
    (localDepth accumulatorDepth : Nat)
    (rs : List Request)
    (hPermits : (empty localDepth accumulatorDepth).PermitsAll rs) :
    ((empty localDepth accumulatorDepth).serveAll rs).Orderly
      (empty localDepth accumulatorDepth).capacity
      ((empty localDepth accumulatorDepth).states rs) := by
  have hRuns :=
    (stable_empty localDepth accumulatorDepth).runs_serveAll hPermits
  rcases hRuns.sound with ⟨pins, hSound⟩
  have hReached :
      ∀ kind, ∃ s ∈ (empty localDepth accumulatorDepth).states rs,
        s.used kind =
          ((empty localDepth accumulatorDepth).serveAll rs).stats.peak
            kind := by
    intro kind
    rcases hRuns.reached kind with hZero | hState
    · refine ⟨empty localDepth accumulatorDepth, ?_, ?_⟩
      · cases rs <;> exact List.mem_cons_self
      · rw [hZero]
        cases kind <;>
          simp [empty, used, freeList, FreeList.used, FreeList.full,
            MemoryStats.zero, MemoryStats.peak]
    · exact hState
  constructor
  case sorted => exact fun kind => (hSound.lists kind).apart
  case filled =>
    intro kind hPos
    rw [← hRuns.capacity kind] at hPos
    exact (hSound.lists kind).pos hPos
  case shared =>
    intro kind
    rw [← hRuns.capacity kind]
    exact hSound.partitions kind
  case distinct => exact hSound.distinct
  case recorded => exact hSound.recorded_perm
  case used_eq => exact fun kind => (hSound.sum_live kind).symm
  case used_le => exact hRuns.used_le
  case reached => exact hReached
  case peak_le =>
    intro kind
    rcases hReached kind with ⟨s, hMem, hUsed⟩
    rw [← hUsed]
    exact hRuns.limited kind s hMem
  case audited => exact hSound.audit

/- The layout of a column of vectors. -/
def column
    (rows alignment : Nat) : VectorLayout :=
  { shape := [rows], vectorSize := 1, rows, tiles := 1, alignment }

/-
  Two tensors leave gaps around them, a third one is placed after
  a spill, and some requests in between are refused.
-/
def crowding : List Request :=
  [ .allocate ⟨0⟩ "a" (column 3 1) .scratchpad,
    .setClock 1,
    .allocate ⟨1⟩ "b" (column 3 4) .scratchpad,
    .pin ⟨1⟩,
    .allocate ⟨2⟩ "c" (column 4 1) .scratchpad,
    .unpin ⟨1⟩,
    .unpin ⟨1⟩,
    .spill ⟨0⟩,
    .allocate ⟨2⟩ "c" (column 4 1) .scratchpad,
    .allocate ⟨3⟩ "d" (column 5 1) .accumulator,
    .free ⟨0⟩,
    .setNextUse ⟨2⟩ (some 7),
    .free ⟨1⟩ ]

/-
  One tensor is left, the gaps are one region again, and the peak
  is that of two tensors.
-/
theorem orderly_crowding :
    (empty 8 4).PermitsAll crowding ∧
      ((empty 8 4).serveAll crowding).Orderly
        (empty 8 4).capacity ((empty 8 4).states crowding) ∧
      ((empty 8 4).serveAll crowding).residents.map
          (fun r => (r.tensor, r.binding.region, r.nextUse)) =
        [(⟨2⟩, ⟨0, 4⟩, some 7)] ∧
      ((empty 8 4).serveAll crowding).history.map
          (fun b => (b.tensor, b.releasedAt, b.spilled)) =
        [(⟨0⟩, some 1, true), (⟨1⟩, some 1, false), (⟨2⟩, none, false)] ∧
      ((empty 8 4).serveAll crowding).scratchpad.regions = [⟨4, 4⟩] ∧
      ((empty 8 4).serveAll crowding).accumulator.regions = [⟨0, 4⟩] ∧
      ((empty 8 4).serveAll crowding).stats =
        { peakLocal := 7, peakAccumulator := 0, allocations := 3, spills := 1 } :=
  ⟨by decide, orderly_serveAll 8 4 crowding (by decide), by decide,
    by decide, by decide, by decide, by decide⟩

end Memory

end Systolic
