import Systolic.Text.Quoted
import Systolic.Graph.Parser
import Systolic.Output.Compiled
import Systolic.CommandLine.Arguments
import Systolic.CommandLine.FileTree

/-
  This file defines the command: it reads a graph, compiles it,
  writes the program and the header next to each other, and says
  what it has done. The way files are reached is a parameter.

  Key definitions include:
    * `GraphError.report`
    * `CompileError.report`
    * `Outcome`
    * `Invocation.compileText`
    * `Invocation.execute`
    * `runCommand`
-/

namespace Systolic

------------------------------------------------------------
-- Reports
------------------------------------------------------------

/- A record with named parts. -/
def recordText
    (name : String)
    (parts : List (String × String)) : String :=
  name ++ " \x7b " ++
    ", ".intercalate (parts.map (fun p => p.1 ++ ": " ++ p.2)) ++ " \x7d"

/- The report of a graph's fault. -/
def GraphError.report : GraphError → String
| unknownOutput name => recordText "UnknownOutput" [("name", quoted name)]
| cycle node => recordText "Cycle" [("node", quoted node)]
| malformed node fault =>
    recordText "Malformed" [("node", quoted node), ("reason", quoted fault.message)]
| parse line fault =>
    recordText "Parse" [("line", toString line), ("message", quoted fault.message)]

/- The word for a memory in a report. -/
def MemoryKind.reportName : MemoryKind → String
| scratchpad => "Local"
| accumulator => "Accumulator"

/- The report of an error. -/
def CompileError.report : CompileError → String
| graph error => "Graph(" ++ error.report ++ ")"
| memory (.outOfMemory tensor kind requested capacity) =>
    recordText "OutOfMemory"
      [ ("tensor", quoted tensor), ("kind", kind.reportName),
        ("requested", toString requested), ("capacity", toString capacity) ]
| memory (.invariant fault) =>
    recordText "MemoryInvariant" [("reason", quoted fault.message)]
| scheduling fault context =>
    recordText "Scheduling" [("reason", quoted fault.message), ("context", quoted context)]
| encoding fault =>
    recordText "Encoding"
      [ ("emitter", quoted fault.subject), ("field", quoted fault.field),
        ("value", toString fault.value), ("limit", toString fault.limit) ]
| machine fault =>
    recordText "InvalidArchitecture" [("reason", quoted fault.message)]
| incompatible expected found =>
    recordText "Incompatible" [("expected", quoted expected), ("found", quoted found)]
| undefined cause => recordText "Undefined" [("reason", quoted cause.message)]

------------------------------------------------------------
-- Execution
------------------------------------------------------------

/- How the command ends. -/
structure Outcome where
  exitCode : Nat
  stdout : String
  stderr : String
deriving DecidableEq, Repr

/- The command ends with a report of an error. -/
def Outcome.failed (report : String) : Outcome :=
  { exitCode := 1, stdout := "", stderr := "Error: " ++ report ++ "\n" }

namespace Invocation

/- Compile the text of a graph, or report why it cannot be. -/
def compileText
    (i : Invocation)
    (text : String) : Except String Compiled :=
  match Graph.parse text with
  | .error e => .error e.report
  | .ok g =>
      match compile g.network i.outputs i.machine i.lookahead with
      | .error e => .error e.report
      | .ok c => .ok c

/- The path of an output file. -/
def outputPath
    (i : Invocation)
    (extension : String) : String :=
  PathName.withExtension (i.base.getD (PathName.withExtension i.graph "")) extension

/- What the command prints after it has written its files. -/
def finalText
    (i : Invocation)
    (c : Compiled) : String :=
  (if i.listing then c.listing else "") ++
    "Wrote " ++ i.outputPath "tprog" ++ " and " ++ i.outputPath "h" ++ "\n" ++
    c.summary.text

variable {m : Type → Type} [Monad m]

/- Read the graph, compile it and write the program and the header. -/
def execute
    (i : Invocation)
    (files : FileAccess m) : m Outcome := do
  match ← files.read i.graph with
  | .error fault => return .failed fault.report
  | .ok text =>
      match i.compileText text with
      | .error report => return .failed report
      | .ok c =>
          match ← files.write (i.outputPath "tprog") c.schedule.bytes with
          | .error fault => return .failed fault.report
          | .ok _ =>
              match ← files.write (i.outputPath "h") c.header.toUTF8.toList with
              | .error fault => return .failed fault.report
              | .ok _ => return { exitCode := 0, stdout := i.finalText c, stderr := "" }

end Invocation

------------------------------------------------------------
-- Command
------------------------------------------------------------

/- How the command is used. -/
def usageText : String :=
  "Usage: tcuc [OPTIONS] --output <NAME> <GRAPH>\n"

/- What the command does when it is not asked to compile. -/
def Stop.outcome : Stop → Outcome
| usage => { exitCode := 2, stdout := "", stderr := usageText }
| version => { exitCode := 0, stdout := "tcuc 0.1.0\n", stderr := "" }
| help => { exitCode := 0, stdout := usageText, stderr := "" }

variable {m : Type → Type} [Monad m]

/- Run the command. -/
def runCommand
    (files : FileAccess m)
    (arguments : List String) : m Outcome :=
  match parseArguments arguments with
  | .error stop => return stop.outcome
  | .ok i => i.execute files

end Systolic
