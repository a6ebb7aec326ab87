import Systolic.Proofs.Tensor.Table

/-
  This file proves that the places of tensors fill what is handed
  out of the DRAM banks, and that each place lies in the bank that
  the role of its tensor says.

  Key definitions include:
    * `TensorRole.bank?`
    * `TensorTable.Occupies`
    * `TensorTable.Packs`

  Key theorems include:
    * `TensorTable.Packs.reserve`
-/

namespace Systolic

/-
  The bank of a place in DRAM. Inputs start in the first bank and
  constants in the second one, all other places are in the first.
-/
def TensorRole.bank?
    (role : TensorRole) : DramSlot → Option DramBank
| .home =>
    match role with
    | .input => some .dram0
    | .constant => some .dram1
    | .intermediate => none
    | .accumulator => none
| .exported => some .dram0
| .spilled => some .dram0

namespace TensorTable

/- A vector of a bank belongs to a place of a tensor. -/
def Occupies
    (table : TensorTable)
    (bank : DramBank)
    (a : Nat) : Prop :=
  ∃ t slot l size,
    table.extent? t slot = some (l, size) ∧
      l.bank = bank ∧ l.address ≤ a ∧ a < l.address + size

/- The places of tensors are in their banks and leave no gap. -/
structure Packs
    (table : TensorTable)
    (dram : Dram) : Prop where
  banked :
    ∀ {t tensor slot l},
      table.get? t = some tensor →
      tensor.slot? slot = some l →
        tensor.role.bank? slot = some l.bank
  filled : ∀ {bank a}, a < dram.used bank → table.Occupies bank a

/- A tensor without places leaves the others where they are. -/
theorem Packs.add
    {table : TensorTable}
    {dram : Dram}
    (hPacks : table.Packs dram)
    {tensor : Tensor}
    (hPlaces : ∀ slot, tensor.slot? slot = none) :
    (table.add tensor).Packs dram where
  banked := by
    intro t tensor' slot l hGet hSlot
    rw [get?_add] at hGet
    split at hGet
    · cases hGet
      rw [hPlaces] at hSlot
      cases hSlot
    · exact hPacks.banked hGet hSlot
  filled := by
    intro bank a hUsed
    rcases hPacks.filled hUsed with ⟨t, slot, l, size, hExtent, hRest⟩
    refine ⟨t, slot, l, size, ?_, hRest⟩
    rw [extent?_add table hPlaces, hExtent]

/- A place that a tensor did not have starts where its bank ended. -/
theorem Packs.reserve
    {table : TensorTable}
    {dram : Dram}
    {t : TensorId}
    {tensor : Tensor}
    {slot : DramSlot}
    {bank : DramBank}
    (hPacks : table.Packs dram)
    (hGet : table.get? t = some tensor)
    (hNone : tensor.slot? slot = none)
    (hBank : tensor.role.bank? slot = some bank) :
    (table.modify t
        (·.setSlot slot (some { bank, address := dram.used bank }))).Packs
      (dram.setUsed bank (dram.used bank + tensor.layout.depth)) where
  banked := by
    intro u tensor' other l hGet' hSlot
    rw [get?_modify] at hGet'
    split at hGet'
    case isFalse => exact hPacks.banked hGet' hSlot
    case isTrue hSame =>
      subst hSame
      rw [hGet] at hGet'
      cases hGet'
      have hRole :
          (tensor.setSlot slot
            (some { bank, address := dram.used bank })).role =
              tensor.role := by
        cases slot <;> rfl
      rw [hRole]
      rw [Tensor.slot?_setSlot] at hSlot
      split at hSlot
      case isTrue hOther =>
        cases hSlot
        rw [hOther]
        exact hBank
      case isFalse => exact hPacks.banked hGet hSlot
  filled := by
    intro bank' a hUsed
    have hExtent := extent?_modify_setSlot hGet slot
      { bank, address := dram.used bank }
    rcases Nat.lt_or_ge a (dram.used bank') with hOld | hNew
    · rcases hPacks.filled hOld with ⟨u, other, l, size, hOld, hRest⟩
      refine ⟨u, other, l, size, ?_, hRest⟩
      rw [hExtent, if_neg, hOld]
      -- The slot of the new place had no extent.
      intro hKey
      cases hKey
      simp [extent?, hGet, hNone] at hOld
    · rw [Dram.used_setUsed] at hUsed
      split at hUsed
      case isFalse => omega
      case isTrue hSame =>
        subst hSame
        refine
          ⟨t, slot, { bank := bank', address := dram.used bank' },
            tensor.layout.depth, ?_, rfl, hNew, hUsed⟩
        rw [hExtent, if_pos rfl]

theorem packs_empty :
    TensorTable.empty.Packs Dram.empty where
  banked := by
    intro t tensor slot l hGet
    simp [get?, empty] at hGet
  filled := by
    intro bank a hUsed
    cases bank <;> cases hUsed

end TensorTable

end Systolic
