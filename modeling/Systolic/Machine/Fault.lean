/-
  This file defines the reasons why no machine can be built
  from a set of parameters, and their wording.

  Key definitions include:
    * `Store`
    * `MachineFault`
    * `MachineFault.message`
-/

namespace Systolic

/- The memories of a machine. -/
inductive Store where
| scratchpad
| accumulator
| dram0
| dram1
deriving DecidableEq, Repr

/- The name of a memory. -/
def Store.name : Store → String
| scratchpad => "local"
| accumulator => "accumulator"
| dram0 => "dram0"
| dram1 => "dram1"

/- Why a machine is refused. -/
inductive MachineFault where
| emptyArray
| emptyStore (store : Store)
| busWidth (width : Nat)
| wideWord (bits : Nat)
deriving DecidableEq, Repr

/- The widest instruction word that a machine decodes. -/
def maxWordBits : Nat :=
  128

/- The wording of a refusal. -/
def MachineFault.message : MachineFault → String
| emptyArray => "array size must be positive"
| emptyStore store => s!"{store.name} depth must be positive"
| busWidth width => s!"DRAM bus width {width} is not a positive multiple of 8"
| wideWord bits =>
    s!"instruction word needs {bits} bits, at most {maxWordBits} are supported"

end Systolic
