import Systolic.Arith.Count
import Systolic.Text.Blank
import Systolic.Text.Lines
import Systolic.Graph.Basic

/-
  This file defines the reading of graphs. Every line that is
  not blank defines one node, a comment runs from a semicolon to
  the end of its line, and blanks may stand between any two
  tokens. Operands may be defined on any line, so their names
  are looked up after all lines are read.

  Key definitions include:
    * `Reader`
    * `readShape`
    * `Definition`
    * `readDefinition`
    * `readLines`
    * `Draft.parse`
    * `Graph.parse`
-/

namespace Systolic

------------------------------------------------------------
-- Tokens
------------------------------------------------------------

/- A reader takes characters from the front of a line. -/
abbrev Reader (α : Type) :=
  List Char → Except ParseFault (α × List Char)

/- Take a given character, if it is the next that is not blank. -/
def readChar?
    (c : Char)
    (cs : List Char) : Option (List Char) :=
  match skipBlanks cs with
  | [] => none
  | d :: rest => if d = c then some rest else none

/- Take a given character. -/
def readChar (c : Char) : Reader Unit := fun cs =>
  match readChar? c cs with
  | some rest => .ok ((), rest)
  | none => .error (.expectedChar c (skipBlanks cs).head?)

/- Take a name. -/
def readName : Reader String := fun cs =>
  let cs := skipBlanks cs
  if cs.head?.any isNameStart then
    .ok (String.ofList (cs.takeWhile isNameChar), cs.dropWhile isNameChar)
  else .error .expectedIdentifier

/- Take the mark of a value and its name. -/
def readValue : Reader String := fun cs =>
  match readChar '%' cs with
  | .error e => .error e
  | .ok (_, rest) => readName rest

/- Take a decimal number that is a count. -/
def readNumber : Reader Nat := fun cs =>
  let cs := skipBlanks cs
  let digits := cs.takeWhile Char.isDigit
  let n := Nat.ofDigitChars 10 digits 0
  if digits.isEmpty then .error .expectedNumber
  else if n < Count.limit then .ok (n, cs.dropWhile Char.isDigit)
  else .error (.numberTooLarge (String.ofList digits))

------------------------------------------------------------
-- Shapes and Operands
------------------------------------------------------------

/- Take a positive dimension. -/
def readDimension : Reader Nat := fun cs =>
  match readNumber cs with
  | .error e => .error e
  | .ok (n, rest) => if n = 0 then .error .zeroDimension else .ok (n, rest)

/-
  Take the items of a list, and after each of them what tells if
  there is another one. Each round takes a character at least, so
  as many rounds as there are characters are enough.
-/
def readItems
    {α : Type}
    (item : Reader α)
    (more : Reader Bool) : Nat → Reader (List α)
| 0, _ => .error .expectedIdentifier
| rounds + 1, cs =>
    match item cs with
    | .error e => .error e
    | .ok (a, rest) =>
        match more rest with
        | .error e => .error e
        | .ok (false, rest) => .ok ([a], rest)
        | .ok (true, rest) =>
            match readItems item more rounds rest with
            | .error e => .error e
            | .ok (as, rest) => .ok (a :: as, rest)

/- A bracket closes a shape, and a comma stands before a dimension. -/
def moreDimensions : Reader Bool := fun cs =>
  match readChar? ']' cs with
  | some rest => .ok (false, rest)
  | none =>
      match readChar ',' cs with
      | .error e => .error e
      | .ok (_, rest) => .ok (true, rest)

/- Take a shape. -/
def readShape : Reader (List Nat) := fun cs =>
  match readChar '[' cs with
  | .error e => .error e
  | .ok (_, rest) =>
      match readChar? ']' rest with
      | some _ => .error .emptyShape
      | none => readItems readDimension moreDimensions (rest.length + 1) rest

/- A comma stands before another operand. -/
def moreOperands : Reader Bool := fun cs =>
  match readChar? ',' cs with
  | none => .ok (false, cs)
  | some rest => .ok (true, rest)

/- Take the operands of a node. -/
def readOperands : Reader (List String) := fun cs =>
  readItems readValue moreOperands (cs.length + 1) cs

------------------------------------------------------------
-- Definitions
------------------------------------------------------------

/- A node with the names of its operands. -/
structure Definition where
  name : String
  op : NodeOp
  operands : List String
deriving DecidableEq, Repr

/- Take something and build a node from it. -/
def readInto
    {α : Type}
    (read : Reader α)
    (build : α → Definition) : Reader Definition := fun cs =>
  match read cs with
  | .error e => .error e
  | .ok (a, rest) => .ok (build a, rest)

/- Take a shape and build the node that declares it. -/
def readShaped
    (name : String)
    (op : List Nat → NodeOp) : Reader Definition :=
  readInto readShape
    (fun shape => { name, op := op shape, operands := [] })

/- Take operands and build the node that has them. -/
def readApplied
    (name : String)
    (op : NodeOp) : Reader Definition :=
  readInto readOperands (fun operands => { name, op, operands })

/- Take what stands after the name of an operation. -/
def readArguments
    (name operation : String) : Reader Definition :=
  if operation = "input" then readShaped name .input
  else if operation = "const" then readShaped name .constant
  else if operation = "matmul" then readApplied name .matMul
  else if operation = "add" then readApplied name .add
  else if operation = "relu" then readApplied name .relu
  else fun _ => .error (.unknownOperation operation)

/- Read what stands after the name of a node, up to the end. -/
def readBody
    (name : String)
    (cs : List Char) : Except ParseFault Definition :=
  match readChar '=' cs with
  | .error e => .error e
  | .ok (_, rest) =>
      match readName rest with
      | .error e => .error e
      | .ok (operation, rest) =>
          match readArguments name operation rest with
          | .error e => .error e
          | .ok (definition, rest) =>
              if (skipBlanks rest).isEmpty then .ok definition
              else .error (.trailing (String.ofList (trimBlanks rest)))

/- A definition and the number of its line. -/
structure Entry where
  line : Nat
  definition : Definition
deriving DecidableEq, Repr

/- Read one definition after the entries above it. -/
def readDefinition
    (above : List Entry)
    (cs : List Char) : Except ParseFault Definition :=
  match readValue cs with
  | .error e => .error e
  | .ok (name, rest) =>
      match above.find? (fun e => e.definition.name = name) with
      | some e => .error (.redefined name e.line)
      | none => readBody name rest

------------------------------------------------------------
-- Texts
------------------------------------------------------------

/- A line up to its comment. -/
def withoutComment (cs : List Char) : List Char :=
  cs.takeWhile (fun c => c ≠ ';')

/- Read lines from a given number on, after the entries above them. -/
def readLines
    (line : Nat)
    (above : List Entry) :
    List (List Char) → Except GraphError (List Entry)
| [] => .ok above
| cs :: rest =>
    let cs := withoutComment cs
    if (skipBlanks cs).isEmpty then readLines (line + 1) above rest
    else
      match readDefinition above cs with
      | .error fault => .error (.parse line fault)
      | .ok definition =>
          readLines (line + 1) (above ++ [{ line, definition }]) rest

/- The places of operands on a line. -/
def resolveNames
    (d : Draft)
    (line : Nat) : List String → Except GraphError (List Nat)
| [] => .ok []
| name :: names =>
    match d.place? name with
    | none => .error (.parse line (.unknownValue name))
    | some i =>
        match resolveNames d line names with
        | .error e => .error e
        | .ok is => .ok (i :: is)

/- The nodes of some of the entries. -/
def resolveEntries
    (d : Draft) : List Entry → Except GraphError (List Node)
| [] => .ok []
| e :: es =>
    match resolveNames d e.line e.definition.operands with
    | .error fault => .error fault
    | .ok operands =>
        match resolveEntries d es with
        | .error fault => .error fault
        | .ok nodes =>
            .ok ({ name := e.definition.name, op := e.definition.op, operands } :: nodes)

/- Append a node for each definition, which has no operands yet. -/
def Draft.declareAll
    (d : Draft)
    (defs : List Definition) : Draft :=
  defs.foldl
    (fun d c => d.grow { name := c.name, op := c.op, operands := [] }) d

/- Read a graph, and keep where each name was put. -/
def Draft.parse (text : String) : Except GraphError Draft :=
  match readLines 1 [] (lines text.toList) with
  | .error e => .error e
  | .ok entries =>
      let d := empty.declareAll (entries.map (·.definition))
      match resolveEntries d entries with
      | .error e => .error e
      | .ok nodes => .ok { d with graph := { nodes } }

/- Read a graph. -/
def Graph.parse (text : String) : Except GraphError Graph :=
  (Draft.parse text).map Draft.graph

end Systolic
