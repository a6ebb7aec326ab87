import Systolic.Text.Numeral

/-
  This file defines what can be wrong with a graph or its text,
  and the wording.

  Key definitions include:
    * `NodeFault`
    * `NodeFault.message`
    * `ParseFault`
    * `ParseFault.message`
    * `GraphError`
    * `GraphError.message`
-/

namespace Systolic

------------------------------------------------------------
-- Nodes
------------------------------------------------------------

/- What is wrong with a node. -/
inductive NodeFault where
| invalidName
| definedTwice
| unknownOperand (name : String)
| arity (op : String) (expected got : Nat)
| matMulArity (got : Nat)
| invalidShape (shape : List Nat)
| tooLarge (shape : List Nat)
| usedBeforeDefined
| notConstant (name : String)
| weightRank (shape : List Nat)
| noDimensions
| innerDimensions (input weights : List Nat)
| biasShape (bias : List Nat) (columns : Nat)
| operandShapes (first second : List Nat)
| weightElementwise
deriving DecidableEq, Repr

/- The wording of a node's fault. -/
def NodeFault.message : NodeFault → String
| invalidName => "invalid name"
| definedTwice => "defined twice"
| unknownOperand name => s!"unknown operand %{name}"
| arity op expected got => s!"{op} expects {expected} operands, got {got}"
| matMulArity got => s!"matmul expects 2 or 3 operands, got {got}"
| invalidShape shape => s!"invalid shape {shapeText shape}"
| tooLarge shape => s!"shape {shapeText shape} is too large to lay out in memory"
| usedBeforeDefined => "used before it is defined"
| notConstant name => s!"{name} must be a constant"
| weightRank shape => s!"weights must be two dimensional, got {shapeText shape}"
| noDimensions => "input has no dimensions"
| innerDimensions input weights =>
    s!"inner dimensions differ: input {shapeText input}, weights {shapeText weights}"
| biasShape bias columns =>
    s!"bias shape {shapeText bias} does not match [{columns}]"
| operandShapes first second =>
    s!"operand shapes differ: {shapeText first} vs {shapeText second}"
| weightElementwise => "weight constants cannot be used elementwise"

------------------------------------------------------------
-- Text
------------------------------------------------------------

/- What is wrong with a line of text. -/
inductive ParseFault where
| expectedChar (expected : Char) (found : Option Char)
| expectedIdentifier
| expectedNumber
| numberTooLarge (digits : String)
| emptyShape
| zeroDimension
| unknownOperation (name : String)
| trailing (rest : String)
| redefined (name : String) (line : Nat)
| unknownValue (name : String)
deriving DecidableEq, Repr

/- The wording of a line's fault. -/
def ParseFault.message : ParseFault → String
| expectedChar expected (some found) =>
    s!"expected '{expected}' but found '{found}'"
| expectedChar expected none => s!"expected '{expected}' at end of line"
| expectedIdentifier => "expected identifier"
| expectedNumber => "expected number"
| numberTooLarge digits => s!"number {digits} is too large"
| emptyShape => "empty shape"
| zeroDimension => "shape dimensions must be positive"
| unknownOperation name => s!"unknown operation '{name}'"
| trailing rest => s!"unexpected trailing input '{rest}'"
| redefined name line => s!"%{name} is already defined on line {line}"
| unknownValue name => s!"unknown value %{name}"

------------------------------------------------------------
-- Graphs
------------------------------------------------------------

/- What is wrong with a graph. -/
inductive GraphError where
| unknownOutput (name : String)
| cycle (node : String)
| malformed (node : String) (fault : NodeFault)
| parse (line : Nat) (fault : ParseFault)
deriving DecidableEq, Repr

/- The wording of a graph's fault. -/
def GraphError.message : GraphError → String
| unknownOutput name => s!"Unknown output tensor: {name}"
| cycle node => s!"Cycle detected at node {node}"
| malformed node fault => s!"Malformed node {node}: {fault.message}"
| parse line fault => s!"Parse error at line {line}: {fault.message}"

end Systolic
