import Mathlib.Data.List.Basic
import Systolic.Program.Workbench

/-
  This file states what stays of a table of tensors while it
  grows, and that the places of tensors in DRAM lie apart.

  Key definitions include:
    * `Tensor.Grows`
    * `TensorTable.Extends`
    * `TensorTable.extent?`
    * `TensorTable.Laid`

  Key theorems include:
    * `TensorTable.Laid.reserve`
    * `Workbench.reserveSlot_cases`
-/

namespace Systolic

------------------------------------------------------------
-- Entries
------------------------------------------------------------

namespace TensorTable

/- A table has one more tensor than before only if it is added. -/
@[simp]
theorem size_add
    (table : TensorTable)
    (tensor : Tensor) :
    (table.add tensor).size = table.size + 1 :=
  Array.size_push _

@[simp]
theorem size_modify
    (table : TensorTable)
    (t : TensorId)
    (change : Tensor → Tensor) :
    (table.modify t change).size = table.size :=
  Array.size_modify

/- The new entry has the next number. -/
theorem get?_add
    (table : TensorTable)
    (tensor : Tensor)
    (t : TensorId) :
    (table.add tensor).get? t =
      if t = table.next then some tensor else table.get? t := by
  rcases t with ⟨index⟩
  simp only [add, get?, next, size, Array.getElem?_push,
    TensorId.mk.injEq]

/- Only the entry of the given number changes. -/
theorem get?_modify
    (table : TensorTable)
    (t u : TensorId)
    (change : Tensor → Tensor) :
    (table.modify t change).get? u =
      if u = t then (table.get? u).map change else table.get? u := by
  rcases t with ⟨index⟩
  rcases u with ⟨other⟩
  simp only [modify, get?, Array.getElem?_modify,
    TensorId.mk.injEq, eq_comm]

/- No entry has the next number. -/
theorem get?_next (table : TensorTable) :
    table.get? table.next = none := by
  simp [get?, next, size]

/- A number with an entry is not the next one. -/
theorem ne_next_of_get?
    {table : TensorTable}
    {t : TensorId}
    {tensor : Tensor}
    (hGet : table.get? t = some tensor) :
    t ≠ table.next := by
  rintro rfl
  rw [get?_next] at hGet
  cases hGet

/- An entry is fetched. -/
theorem fetch_eq_ok
    {table : TensorTable}
    {t : TensorId}
    {tensor : Tensor}
    (hGet : table.get? t = some tensor) :
    table.fetch t = .ok tensor := by
  rw [fetch, hGet]

end TensorTable

------------------------------------------------------------
-- Growth
------------------------------------------------------------

/-
  A tensor may get a place for the host and one to wait in, and
  nothing else changes.
-/
structure Tensor.Grows (old new : Tensor) : Prop where
  layout_eq : new.layout = old.layout
  kind_eq : new.kind = old.kind
  home_eq : new.home = old.home
  exported : ∀ l ∈ old.exported, l ∈ new.exported
  spilled : ∀ l ∈ old.spilled, l ∈ new.spilled

namespace Tensor.Grows

theorem refl (tensor : Tensor) : tensor.Grows tensor :=
  ⟨rfl, rfl, rfl, fun _ h => h, fun _ h => h⟩

theorem trans
    {a b c : Tensor}
    (hFirst : a.Grows b)
    (hSecond : b.Grows c) :
    a.Grows c where
  layout_eq := hSecond.layout_eq.trans hFirst.layout_eq
  kind_eq := hSecond.kind_eq.trans hFirst.kind_eq
  home_eq := hSecond.home_eq.trans hFirst.home_eq
  exported := fun l h => hSecond.exported l (hFirst.exported l h)
  spilled := fun l h => hSecond.spilled l (hFirst.spilled l h)

end Tensor.Grows

namespace TensorTable

/- Every entry of one table is in another one and may have grown. -/
def Extends
    (old new : TensorTable) : Prop :=
  ∀ t tensor,
    old.get? t = some tensor →
      ∃ grown, new.get? t = some grown ∧ tensor.Grows grown

theorem Extends.refl (table : TensorTable) :
    table.Extends table :=
  fun _ tensor hGet => ⟨tensor, hGet, .refl tensor⟩

theorem Extends.trans
    {a b c : TensorTable}
    (hFirst : a.Extends b)
    (hSecond : b.Extends c) :
    a.Extends c := by
  intro t tensor hGet
  rcases hFirst t tensor hGet with ⟨middle, hMiddle, hGrows⟩
  rcases hSecond t middle hMiddle with ⟨last, hLast, hGrows'⟩
  exact ⟨last, hLast, hGrows.trans hGrows'⟩

/- A new entry extends a table. -/
theorem extends_add
    (table : TensorTable)
    (tensor : Tensor) :
    table.Extends (table.add tensor) := by
  intro t old hGet
  refine ⟨old, ?_, .refl old⟩
  rw [get?_add, if_neg (ne_next_of_get? hGet), hGet]

/- Changing one entry so that it grows extends a table. -/
theorem extends_modify
    {table : TensorTable}
    {t : TensorId}
    {change : Tensor → Tensor}
    (hChange :
      ∀ tensor, table.get? t = some tensor →
        tensor.Grows (change tensor)) :
    table.Extends (table.modify t change) := by
  intro u tensor hGet
  rw [get?_modify]
  by_cases hSame : u = t
  · subst hSame
    exact ⟨change tensor, by simp [hGet], hChange tensor hGet⟩
  · exact ⟨tensor, by simp [hSame, hGet], .refl tensor⟩

end TensorTable

------------------------------------------------------------
-- Extents in DRAM
------------------------------------------------------------

/- The place of a tensor in DRAM for one of its slots. -/
def Tensor.slot?
    (tensor : Tensor) : DramSlot → Option DramLocation
| .home => tensor.home
| .exported => tensor.exported
| .spilled => tensor.spilled

/- A place in DRAM stays while its tensor grows. -/
theorem Tensor.Grows.slot?_eq
    {old new : Tensor}
    {slot : DramSlot}
    {l : DramLocation}
    (hGrows : old.Grows new)
    (hSlot : old.slot? slot = some l) :
    new.slot? slot = some l := by
  cases slot with
  | home => exact hGrows.home_eq.trans hSlot
  | exported => exact hGrows.exported l hSlot
  | spilled => exact hGrows.spilled l hSlot

@[simp] theorem Tensor.layout_setSlot
    (tensor : Tensor)
    (slot : DramSlot)
    (location : Option DramLocation) :
    (tensor.setSlot slot location).layout = tensor.layout := by
  cases slot <;> rfl

theorem Tensor.slot?_setSlot
    (tensor : Tensor)
    (slot other : DramSlot)
    (location : Option DramLocation) :
    (tensor.setSlot slot location).slot? other =
      if other = slot then location else tensor.slot? other := by
  cases slot <;> cases other <;> rfl

/- A copy in DRAM is one of the places of a tensor. -/
theorem Tensor.exists_slot_of_dramCopy
    {tensor : Tensor}
    {l : DramLocation}
    (hCopy : tensor.dramCopy = some l) :
    ∃ slot, tensor.slot? slot = some l := by
  unfold Tensor.dramCopy at hCopy
  cases hSpilled : tensor.spilled with
  | none =>
      rw [hSpilled, Option.none_or] at hCopy
      exact ⟨.home, hCopy⟩
  | some k =>
      rw [hSpilled, Option.some_or] at hCopy
      exact ⟨.spilled, hSpilled.trans hCopy⟩

/- A copy in DRAM stays while its tensor grows. -/
theorem Tensor.Grows.isSome_dramCopy
    {old new : Tensor}
    (hGrows : old.Grows new)
    (hCopy : old.dramCopy.isSome) :
    new.dramCopy.isSome := by
  unfold Tensor.dramCopy at hCopy ⊢
  rw [hGrows.home_eq]
  cases hSpilled : old.spilled with
  | none =>
      rw [hSpilled, Option.none_or] at hCopy
      rw [Option.isSome_or, hCopy, Bool.or_true]
  | some l =>
      rw [hGrows.spilled l hSpilled]
      rfl

/- The start and the number of vectors of a slot of a tensor. -/
def TensorTable.extent?
    (table : TensorTable)
    (t : TensorId)
    (slot : DramSlot) : Option (DramLocation × Nat) :=
  (table.get? t).bind (fun tensor =>
    (tensor.slot? slot).map (fun l => (l, tensor.layout.depth)))

/- Two runs of vectors in DRAM do not meet. -/
def DramLocation.Apart
    (l : DramLocation)
    (size : Nat)
    (k : DramLocation)
    (size' : Nat) : Prop :=
  l.bank = k.bank →
    l.address + size ≤ k.address ∨ k.address + size' ≤ l.address

/-
  The places of tensors lie apart, inside what is handed out of
  their banks.
-/
structure TensorTable.Laid
    (table : TensorTable)
    (dram : Dram) : Prop where
  bounded : ∀ bank, dram.used bank < Count.limit
  below :
    ∀ {t slot l size},
      table.extent? t slot = some (l, size) →
        l.address + size ≤ dram.used l.bank
  apart :
    ∀ {t slot l size t' slot' l' size'},
      table.extent? t slot = some (l, size) →
      table.extent? t' slot' = some (l', size') →
      (t, slot) ≠ (t', slot') →
        l.Apart size l' size'

namespace TensorTable

variable {tensor : Tensor} {table : TensorTable}

/- A slot of a tensor of a table has its extent. -/
theorem extent?_eq_some
    {t : TensorId}
    {slot : DramSlot}
    {l : DramLocation}
    (hGet : table.get? t = some tensor)
    (hSlot : tensor.slot? slot = some l) :
    table.extent? t slot = some (l, tensor.layout.depth) := by
  simp [extent?, hGet, hSlot]

/- A tensor without places in DRAM adds no extent. -/
theorem extent?_add
    (table : TensorTable)
    (hPlaces : ∀ slot, tensor.slot? slot = none)
    (t : TensorId)
    (slot : DramSlot) :
    (table.add tensor).extent? t slot = table.extent? t slot := by
  unfold extent?
  rw [get?_add]
  by_cases hNext : t = table.next
  · subst hNext
    simp [hPlaces, get?_next]
  · rw [if_neg hNext]

/- Setting a slot changes one extent. -/
theorem extent?_modify_setSlot
    {t : TensorId}
    (hGet : table.get? t = some tensor)
    (slot : DramSlot)
    (l : DramLocation)
    (u : TensorId)
    (other : DramSlot) :
    (table.modify t (·.setSlot slot (some l))).extent? u other =
      if (u, other) = (t, slot) then some (l, tensor.layout.depth)
      else table.extent? u other := by
  unfold extent?
  rw [get?_modify]
  by_cases hSame : u = t
  · subst hSame
    by_cases hSlot : other = slot
    · simp [hGet, Tensor.slot?_setSlot, hSlot]
    · simp [hGet, Tensor.slot?_setSlot, hSlot]
  · simp [hSame]

/- Places stay apart when the table gets a tensor without any. -/
theorem Laid.add
    {dram : Dram}
    (hLaid : table.Laid dram)
    (hPlaces : ∀ slot, tensor.slot? slot = none) :
    (table.add tensor).Laid dram where
  bounded := hLaid.bounded
  below := by
    intro t slot l size hExtent
    rw [extent?_add table hPlaces] at hExtent
    exact hLaid.below hExtent
  apart := by
    intro t slot l size t' slot' l' size' hExtent hExtent'
    rw [extent?_add table hPlaces] at hExtent hExtent'
    exact hLaid.apart hExtent hExtent'

end TensorTable

@[simp] theorem Dram.used_setUsed
    (dram : Dram)
    (bank other : DramBank)
    (n : Nat) :
    (dram.setUsed bank n).used other =
      if other = bank then n else dram.used other := by
  cases bank <;> cases other <;> rfl

/- A place at the end of a bank lies apart from all others. -/
theorem TensorTable.Laid.reserve
    {table : TensorTable}
    {dram : Dram}
    (hLaid : table.Laid dram)
    {t : TensorId}
    {tensor : Tensor}
    (hGet : table.get? t = some tensor)
    (slot : DramSlot)
    (bank : DramBank)
    (hFits : dram.used bank + tensor.layout.depth < Count.limit) :
    (table.modify t
        (·.setSlot slot (some { bank, address := dram.used bank }))).Laid
      (dram.setUsed bank (dram.used bank + tensor.layout.depth)) where
  bounded := by
    intro other
    rw [Dram.used_setUsed]
    split
    case isTrue => exact hFits
    case isFalse => exact hLaid.bounded other
  below := by
    intro u other l size hExtent
    rw [extent?_modify_setSlot hGet] at hExtent
    rw [Dram.used_setUsed]
    split at hExtent
    case isTrue =>
      cases hExtent
      simp
    case isFalse =>
      have hBelow := hLaid.below hExtent
      split
      case isTrue hBank =>
        rw [hBank] at hBelow
        omega
      case isFalse => exact hBelow
  apart := by
    intro u other l size u' other' l' size' hExtent hExtent' hKeys hBank
    rw [extent?_modify_setSlot hGet] at hExtent hExtent'
    split at hExtent <;> split at hExtent'
    case isTrue.isTrue hKey hKey' => exact absurd (hKey.trans hKey'.symm) hKeys
    case isTrue.isFalse =>
      -- The new place starts where the bank ended, after the old one.
      cases hExtent
      have hBelow := hLaid.below hExtent'
      rw [← hBank] at hBelow
      exact .inr hBelow
    case isFalse.isTrue =>
      cases hExtent'
      have hBelow := hLaid.below hExtent
      rw [hBank] at hBelow
      exact .inl hBelow
    case isFalse.isFalse =>
      exact hLaid.apart hExtent hExtent' hKeys hBank

/- A table without entries has no places. -/
theorem TensorTable.laid_empty :
    TensorTable.empty.Laid Dram.empty where
  bounded := by
    intro bank
    cases bank <;> decide
  below := by
    intro t slot l size hExtent
    simp [extent?, get?, empty] at hExtent
  apart := by
    intro t slot l size t' slot' l' size' hExtent
    simp [extent?, get?, empty] at hExtent

------------------------------------------------------------
-- Reserving Places
------------------------------------------------------------

/- A workbench after one of its tensors got a place. -/
def Workbench.reserved
    (w : Workbench)
    (t : TensorId)
    (slot : DramSlot)
    (bank : DramBank)
    (size : Nat) : Workbench :=
  { w with
    dram := w.dram.setUsed bank (w.dram.used bank + size)
    tensors := w.tensors.modify t
      (·.setSlot slot (some { bank, address := w.dram.used bank })) }

/-
  A tensor of a workbench gets a place at the end of a bank,
  unless the end of that place is no count.
-/
theorem Workbench.reserveSlot_cases
    {w : Workbench}
    {t : TensorId}
    {tensor : Tensor}
    (hGet : w.tensors.get? t = some tensor)
    (slot : DramSlot)
    (bank : DramBank) :
    (∃ overflow : DramOverflow,
      Count.limit ≤ overflow.address + overflow.size ∧
        w.reserveSlot t slot bank = .error (.ofDram overflow)) ∨
    (w.dram.used bank + tensor.layout.depth < Count.limit ∧
      w.reserveSlot t slot bank =
        .ok ({ bank, address := w.dram.used bank },
          w.reserved t slot bank tensor.layout.depth)) := by
  unfold reserveSlot
  rw [TensorTable.fetch_eq_ok hGet]
  by_cases hFits :
      w.dram.used bank + tensor.layout.depth < Count.limit
  · right
    refine ⟨hFits, ?_⟩
    simp [Dram.allocate, hFits, reserved]
  · left
    refine
      ⟨{ bank, address := w.dram.used bank,
         size := tensor.layout.depth }, Nat.le_of_not_lt hFits, ?_⟩
    simp [Dram.allocate, hFits]

end Systolic
