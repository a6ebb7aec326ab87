import Systolic.Arith.Count
import Systolic.Text.Numeral
import Systolic.Digest.Sha256

/-
  This file defines the machines that programs are compiled
  for. A machine is a square array of processing elements with
  a local scratchpad, an accumulator memory and two DRAM banks.
  All depths are counted in vectors, and a vector holds one
  scalar for each column of the array.

  Key definitions include:
    * `ScalarFormat`
    * `Machine`
    * `Machine.standard`
    * `Machine.fingerprint`
    * `Machine.text`
-/

namespace Systolic

------------------------------------------------------------
-- Scalar Formats
------------------------------------------------------------

/- The fixed-point formats of the processing elements. -/
inductive ScalarFormat where
| fp8bp4
| fp16bp8
| fp18bp10
| fp32bp16
deriving DecidableEq, Repr

namespace ScalarFormat

/- Every format. -/
def all : List ScalarFormat :=
  [fp8bp4, fp16bp8, fp18bp10, fp32bp16]

/- The width of a scalar in bits. -/
def width : ScalarFormat → Nat
| fp8bp4 => 8
| fp16bp8 => 16
| fp18bp10 => 18
| fp32bp16 => 32

/- How many of the bits are fractional. -/
def fractionalBits : ScalarFormat → Nat
| fp8bp4 => 4
| fp16bp8 => 8
| fp18bp10 => 10
| fp32bp16 => 16

/- The name of a format. -/
def name : ScalarFormat → String
| fp8bp4 => "FP8BP4"
| fp16bp8 => "FP16BP8"
| fp18bp10 => "FP18BP10"
| fp32bp16 => "FP32BP16"

/- The format of a given name, where ASCII case is ignored. -/
def ofName? (s : String) : Option ScalarFormat :=
  all.find? (fun f => f.name.toList == s.toList.map Char.toUpper)

end ScalarFormat

------------------------------------------------------------
-- Machines
------------------------------------------------------------

/- The parameters of one machine. -/
structure Machine where
  format : ScalarFormat
  arraySize : Nat
  localDepth : Nat
  accumulatorDepth : Nat
  dram0Depth : Nat
  dram1Depth : Nat
  busWidth : Nat
deriving DecidableEq, Repr

/- The number of bits that tell `count` values apart, at least one. -/
def bitsFor (count : Nat) : Nat :=
  if count ≤ 2 then 1 else Nat.log2 (count - 1) + 1

namespace Machine

/- Powers are those of the natural numbers themselves. -/
attribute [local instance (high)] instPowNat

/- The machine that is meant where no parameter is given. -/
def standard : Machine :=
  { format := .fp16bp8
    arraySize := 8
    localDepth := 2048
    accumulatorDepth := 512
    dram0Depth := 2 ^ (20 : Nat)
    dram1Depth := 2 ^ (20 : Nat)
    busWidth := 128 }

/- The width of a vector in bits, less what exceeds a count. -/
def vectorBits (m : Machine) : Nat :=
  Count.mulWrap m.arraySize m.format.width

/- The bus transfers that move one vector, on a bus of positive width. -/
def beatsPerVector (m : Machine) : Nat :=
  Count.ceilDiv m.vectorBits m.busWidth

/- The bits of a local address. -/
def localBits (m : Machine) : Nat :=
  bitsFor m.localDepth

/- The bits of an accumulator address. -/
def accumulatorBits (m : Machine) : Nat :=
  bitsFor m.accumulatorDepth

/- The bits of an address in either DRAM bank. -/
def dramBits (m : Machine) : Nat :=
  bitsFor (max m.dram0Depth m.dram1Depth)

/- The bits of a number of vectors less one. -/
def sizeBits (m : Machine) : Nat :=
  bitsFor (max m.localDepth m.accumulatorDepth)

------------------------------------------------------------
-- Identity
------------------------------------------------------------

/- The eight bytes of a count, least significant first. -/
def countBytes (n : Nat) : List UInt8 :=
  (List.range 8).map (fun i => (n / 256 ^ i).toUInt8)

/- All parameters of a machine as bytes. -/
def parameterBytes (m : Machine) : List UInt8 :=
  m.format.name.toUTF8.toList ++
    [m.arraySize, m.localDepth, m.accumulatorDepth,
      m.dram0Depth, m.dram1Depth, m.busWidth].flatMap countBytes

/- A short name for the parameters: the first eight digest bytes. -/
def fingerprint (m : Machine) : String :=
  bytesText ((Sha256.digest m.parameterBytes).take 8)

/- A machine in one line. -/
def text (m : Machine) : String :=
  s!"{m.format.name} {m.arraySize}x{m.arraySize} array, " ++
    s!"local {m.localDepth} vectors, accumulator {m.accumulatorDepth} vectors, " ++
    s!"dram0 {m.dram0Depth}, dram1 {m.dram1Depth}, bus {m.busWidth} bits"

end Machine

end Systolic
