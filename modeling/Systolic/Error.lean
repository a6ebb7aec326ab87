import Systolic.Machine.Fault
import Systolic.Graph.Fault
import Systolic.Memory.Fault
import Systolic.Instruction.Codec

/-
  This file defines why a compilation fails, and the wording.

  Key definitions include:
    * `ScheduleFault`
    * `EncodingFault`
    * `EncodingFault.field`
    * `Undefined`
    * `CompileError`
    * `CompileError.message`
    * `TensorTable.fetch`
-/

namespace Systolic

------------------------------------------------------------
-- Causes
------------------------------------------------------------

/- What stops a program from being scheduled. -/
inductive ScheduleFault where
| readBeforeDefined (name : String)
| definedTwice (name : String)
| nothingReady
| wrongMemory (name : String) (found expected : MemoryKind)
| notResident (name : String) (tensor : TensorId)
| noDramLocation (name : String)
| overwrites (written read : String) (reader : Nat)
deriving DecidableEq, Repr

/- The wording of a scheduling fault. -/
def ScheduleFault.message : ScheduleFault → String
| readBeforeDefined name => s!"{name} is read before it is defined"
| definedTwice name => s!"{name} is defined twice"
| nothingReady => "no pending operation is ready"
| wrongMemory name found expected =>
    s!"{name} lives in {found.name} memory, expected {expected.name}"
| notResident name tensor => s!"{name} ({tensor.text}) is not resident"
| noDramLocation name => s!"{name} has no DRAM location"
| overwrites written read reader =>
    s!"write to {written} overlaps {read} still read by pending operation {reader}"

/-
  What cannot be written into an instruction: an operand that
  does not fit its field, a region whose end is not a count, or
  a region that leaves its bank.
-/
inductive EncodingFault where
| operand (subject : String) (overflow : FieldOverflow)
| beyondCounts (overflow : DramOverflow)
| beyondBank
    (subject : String)
    (location : DramLocation)
    (size depth : Nat)
deriving DecidableEq, Repr

namespace EncodingFault

/- What an encoding fault is about. -/
def subject : EncodingFault → String
| operand subject _ => subject
| beyondCounts overflow =>
    s!"{overflow.bank.name} region of {overflow.size} vectors"
| beyondBank subject _ _ _ => subject

/- The name of the field that cannot hold its value. -/
def field : EncodingFault → String
| operand _ overflow => overflow.field.text
| beyondCounts _ => FieldName.address.text
| beyondBank .. => FieldName.address.text

/- The value that cannot be written. -/
def value : EncodingFault → Nat
| operand _ overflow => overflow.value
| beyondCounts overflow => overflow.address
| beyondBank _ location _ _ => location.address

/- The largest value that could be written. -/
def limit : EncodingFault → Nat
| operand _ overflow => overflow.limit
| beyondCounts overflow => Count.largest - overflow.size
| beyondBank _ _ size depth => depth - size

end EncodingFault

/- A request outside the domain of the compiler. -/
inductive Undefined where
| noTensor (tensor : TensorId)
| vectorSize
| busWidth
deriving DecidableEq, Repr

/- The wording of a request outside the domain. -/
def Undefined.message : Undefined → String
| noTensor tensor => s!"there is no tensor {tensor.text}"
| vectorSize => "a vector holds no scalar"
| busWidth => "the DRAM bus has no width"

------------------------------------------------------------
-- Errors
------------------------------------------------------------

/- Why a compilation fails. -/
inductive CompileError where
| graph (error : GraphError)
| memory (error : MemoryError)
| scheduling (fault : ScheduleFault) (context : String)
| encoding (fault : EncodingFault)
| machine (fault : MachineFault)
| incompatible (expected found : String)
| undefined (cause : Undefined)
deriving DecidableEq, Repr

namespace CompileError

/- The wording of an error. -/
def message : CompileError → String
| graph error => error.message
| memory (.outOfMemory tensor kind requested capacity) =>
    s!"Out of {kind.name} memory placing {tensor}: " ++
      s!"requested {requested} vectors, capacity {capacity}"
| memory (.invariant fault) => s!"Memory invariant violated: {fault.message}"
| scheduling fault context =>
    s!"Scheduling failed: {fault.message} ({context})"
| encoding fault =>
    s!"Cannot encode {fault.subject}: {fault.field} = {fault.value} is outside " ++
      s!"the encodable range (limit {fault.limit})"
| machine fault => s!"Invalid architecture: {fault.message}"
| incompatible expected found =>
    s!"Program built for architecture {found} but target is {expected}"
| undefined cause => s!"Undefined request: {cause.message}"

/- An operand of a subject that does not fit its field. -/
def ofField
    (subject : String)
    (overflow : FieldOverflow) : CompileError :=
  .encoding (.operand subject overflow)

/- A region that does not fit the addresses of a bank. -/
def ofDram (overflow : DramOverflow) : CompileError :=
  .encoding (.beyondCounts overflow)

end CompileError

/- The tensor of a number that must have one. -/
def TensorTable.fetch
    (table : TensorTable)
    (t : TensorId) : Except CompileError Tensor :=
  match table.get? t with
  | some tensor => .ok tensor
  | none => .error (.undefined (.noTensor t))

end Systolic
