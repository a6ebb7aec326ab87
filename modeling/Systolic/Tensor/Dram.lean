import Systolic.Arith.Count

/-
  This file defines the two DRAM banks and how they are handed
  out: regions follow one another from address zero and are
  never returned. The first bank takes inputs, results and
  tensors that leave the chip for a while, the second one takes
  constants.

  Key definitions include:
    * `DramBank`
    * `DramLocation`
    * `Dram`
    * `Dram.allocate`
    * `DramOverflow`
-/

namespace Systolic

/- The DRAM banks. -/
inductive DramBank where
| dram0
| dram1
deriving DecidableEq, Repr

/- The name of a bank. -/
def DramBank.name : DramBank → String
| dram0 => "DRAM0"
| dram1 => "DRAM1"

/- The number of a bank. -/
def DramBank.index : DramBank → Nat
| dram0 => 0
| dram1 => 1

/- The start of a region in a bank. -/
structure DramLocation where
  bank : DramBank
  address : Nat
deriving DecidableEq, Repr

/- How many vectors of each bank are handed out. -/
structure Dram where
  used0 : Nat
  used1 : Nat
deriving DecidableEq, Repr

/- A region whose end is not a count. -/
structure DramOverflow where
  bank : DramBank
  address : Nat
  size : Nat
deriving DecidableEq, Repr

namespace Dram

/- Nothing is handed out yet. -/
def empty : Dram :=
  { used0 := 0, used1 := 0 }

/- The vectors handed out of a bank. -/
def used
    (d : Dram) : DramBank → Nat
| .dram0 => d.used0
| .dram1 => d.used1

/- Set the number of vectors handed out of a bank. -/
def setUsed
    (d : Dram)
    (bank : DramBank)
    (n : Nat) : Dram :=
  match bank with
  | .dram0 => { d with used0 := n }
  | .dram1 => { d with used1 := n }

/- Hand out the next `size` vectors of a bank. -/
def allocate
    (d : Dram)
    (bank : DramBank)
    (size : Nat) : Except DramOverflow (DramLocation × Dram) :=
  let address := d.used bank
  if address + size < Count.limit then
    .ok ({ bank, address }, d.setUsed bank (address + size))
  else
    .error { bank, address, size }

end Dram

end Systolic
