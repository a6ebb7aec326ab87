import Systolic.Text.Lines
import Systolic.Tensor.Dram
import Systolic.Instruction.WordLayout

/-
  This file defines the header that tells a host about a machine
  and about the tensors of a program in DRAM, and the look-up of
  a value in a header.

  Key definitions include:
    * `HostTensor`
    * `HeaderLine`
    * `freshName`
    * `renderHeader`
    * `defineValue?`
-/

namespace Systolic

------------------------------------------------------------
-- Tensors of the Host
------------------------------------------------------------

/- What a tensor in DRAM is to the host. -/
inductive HostKind where
| input
| constant
| output
deriving DecidableEq, Repr

namespace HostKind

/- The name of a kind. -/
def name : HostKind → String
| input => "input"
| constant => "constant"
| output => "output"

/- The part of a macro name that stands for a kind. -/
def tag : HostKind → String
| input => "INPUT"
| constant => "CONST"
| output => "OUTPUT"

end HostKind

/- A tensor that the host writes or reads in DRAM. -/
structure HostTensor where
  name : String
  kind : HostKind
  location : DramLocation
  shape : List Nat
  depth : Nat
deriving DecidableEq, Repr

------------------------------------------------------------
-- Names
------------------------------------------------------------

/- An ASCII letter or digit in upper case, or an underscore. -/
def identifierChar (c : Char) : Char :=
  if c.isAlphanum then c.toUpper else '_'

/-
  A name as part of a macro name. A digit in front gets an
  underscore before it.
-/
def identifier (name : String) : String :=
  let cs := name.toList.map identifierChar
  String.ofList (if cs.head?.any Char.isDigit then '_' :: cs else cs)

/-
  The first of `base`, `base_2`, `base_3` and so on that is not
  taken. One more name than are taken has a new one among them.
-/
def freshName
    (taken : List String)
    (base : String) : String :=
  let numbered := (List.range taken.length).map (fun i => s!"{base}_{i + 2}")
  ((base :: numbered).find? (fun name => name ∉ taken)).getD base

/- Different names for tensors, after the names that are taken. -/
def hostNames
    (taken : List String) : List HostTensor → List String
| [] => []
| t :: ts =>
    let name := freshName taken s!"TCU_{t.kind.tag}_{identifier t.name}"
    name :: hostNames (name :: taken) ts

------------------------------------------------------------
-- Lines
------------------------------------------------------------

/- A line of a header. -/
inductive HeaderLine where
| plain (text : String)
| define (name value : String)
deriving DecidableEq, Repr

namespace HeaderLine

/- The text of a line. -/
def text : HeaderLine → String
| plain text => text
| define name value => "#define " ++ name ++ " " ++ value

/- A macro that is a number. -/
def number
    (name : String)
    (value : Nat) : HeaderLine :=
  define name (toString value)

/- A macro that is a quoted text. -/
def quoted
    (name value : String) : HeaderLine :=
  define name ("\"" ++ value ++ "\"")

/- An empty line and a title. -/
def title (text : String) : List HeaderLine :=
  [plain "", plain s!"/* {text} */"]

end HeaderLine

/- The lines about the parameters of a machine. -/
def machineLines
    (fingerprint : String)
    (m : Machine) : List HeaderLine :=
  HeaderLine.title "Architecture" ++
    [ .quoted "TCU_FINGERPRINT" fingerprint,
      .quoted "TCU_DATA_TYPE" m.format.name,
      .number "TCU_DATA_WIDTH" m.format.width,
      .number "TCU_DATA_FRACTIONAL_BITS" m.format.fractionalBits,
      .number "TCU_ARRAY_SIZE" m.arraySize,
      .number "TCU_LOCAL_DEPTH" m.localDepth,
      .number "TCU_ACCUMULATOR_DEPTH" m.accumulatorDepth,
      .number "TCU_DRAM0_DEPTH" m.dram0Depth,
      .number "TCU_DRAM1_DEPTH" m.dram1Depth,
      .number "TCU_DRAM_BUS_WIDTH" m.busWidth ]

/- The lines about instruction words. -/
def wordLines
    (w : WordLayout)
    (instructions : Nat) : List HeaderLine :=
  HeaderLine.title "Instruction words" ++
    [ .number "TCU_INSTRUCTION_BITS" w.wordBits,
      .number "TCU_INSTRUCTION_BYTES" w.wordBytes,
      .number "TCU_INSTRUCTION_COUNT" instructions ]

/- The lines about a field of one kind of instruction. -/
def fieldLines
    (op : Opcode)
    (f : Field) : List HeaderLine :=
  let base := s!"TCU_{identifier op.mnemonic}_{identifier f.name.text}"
  [.number (base ++ "_OFFSET") f.offset, .number (base ++ "_WIDTH") f.width]

/- The lines about one kind of instruction. -/
def opcodeLines
    (w : WordLayout)
    (op : Opcode) : List HeaderLine :=
  HeaderLine.title s!"{op.mnemonic} layout" ++
    [.define s!"TCU_OPCODE_{identifier op.mnemonic}" (hexUpperText op.bits)] ++
    ((w.fields op).filter (fun f => ¬ f.IsReserved)).flatMap (fieldLines op)

/- The lines about a tensor under its macro name. -/
def hostLines
    (name : String)
    (t : HostTensor) : List HeaderLine :=
  [ .number (name ++ "_BANK") t.location.bank.index,
    .number (name ++ "_ADDRESS") t.location.address,
    .number (name ++ "_DEPTH") t.depth ]

/- The lines about the tensors in DRAM, if there are any. -/
def placementLines (host : List HostTensor) : List HeaderLine :=
  match host with
  | [] => []
  | _ =>
      HeaderLine.title "DRAM placement" ++
        ((hostNames [] host).zip host).flatMap (fun (name, t) => hostLines name t)

/- The lines of a header, under a given name of the machine's parameters. -/
def headerLines
    (fingerprint : String)
    (m : Machine)
    (w : WordLayout)
    (host : List HostTensor)
    (instructions : Nat) : List HeaderLine :=
  [ .plain s!"/* Generated by tcuc for {m.text}. Do not edit. */",
    .plain "#ifndef TCU_PROGRAM_H",
    .plain "#define TCU_PROGRAM_H" ] ++
    machineLines fingerprint m ++
    wordLines w instructions ++
    Opcode.all.flatMap (opcodeLines w) ++
    placementLines host ++
    [.plain "", .plain "#endif /* TCU_PROGRAM_H */"]

/- The text of a header. -/
def renderHeader
    (fingerprint : String)
    (m : Machine)
    (w : WordLayout)
    (host : List HostTensor)
    (instructions : Nat) : String :=
  unlines ((headerLines fingerprint m w host instructions).map (·.text))

------------------------------------------------------------
-- Look-Up
------------------------------------------------------------

/- What is left of a text after a text in front of it. -/
def afterPrefix? : List Char → List Char → Option (List Char)
| [], cs => some cs
| _ :: _, [] => none
| p :: ps, c :: cs => if p = c then afterPrefix? ps cs else none

/- The parts of a text before and after its first space. -/
def splitSpace? : List Char → Option (List Char × List Char)
| [] => none
| c :: cs =>
    if c = ' ' then some ([], cs)
    else (splitSpace? cs).map (fun (key, value) => (c :: key, value))

/- The macro and the value that a line defines. -/
def definition? (line : List Char) : Option (List Char × List Char) :=
  (afterPrefix? "#define ".toList line).bind splitSpace?

/- The value of the first definition of a macro in a text. -/
def defineValue?
    (text name : String) : Option String :=
  (lines text.toList).findSome?
    (fun line =>
      (definition? line).bind
        (fun (key, value) =>
          if key = name.toList then some (String.ofList value) else none))

end Systolic
