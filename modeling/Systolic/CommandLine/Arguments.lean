import Systolic.Output.Compiled

/-
  This file defines the arguments of the command. An option that
  takes a value has it behind an equals sign or as the next
  argument, which then must not look like an option. Only the
  option that names outputs may be given more than once. After
  two dashes every argument is the name of the graph.

  Key definitions include:
    * `NumberOption`
    * `ValueOption`
    * `Options`
    * `Options.setValue`
    * `Invocation`
    * `Stop`
    * `parseArguments`
-/

namespace Systolic

------------------------------------------------------------
-- Options
------------------------------------------------------------

/- The options whose value is a number. -/
inductive NumberOption where
| arraySize
| localDepth
| accumulatorDepth
| dram0Depth
| dram1Depth
| busWidth
| lookahead
deriving DecidableEq, Repr

namespace NumberOption

/- Every such option. -/
def all : List NumberOption :=
  [arraySize, localDepth, accumulatorDepth, dram0Depth, dram1Depth, busWidth, lookahead]

/- The name of an option. -/
def name : NumberOption → String
| arraySize => "array-size"
| localDepth => "local-depth"
| accumulatorDepth => "accumulator-depth"
| dram0Depth => "dram0-depth"
| dram1Depth => "dram1-depth"
| busWidth => "dram-bus-width"
| lookahead => "lookahead"

end NumberOption

/- The options that take a value. -/
inductive ValueOption where
| output
| base
| format
| number (option : NumberOption)
deriving DecidableEq, Repr

/- The option of a name. -/
def ValueOption.ofName? (name : String) : Option ValueOption :=
  if name = "output" then some .output
  else if name = "prefix" then some .base
  else if name = "data-type" then some .format
  else (NumberOption.all.find? (fun o => o.name = name)).map .number

/- The options that have been given. -/
structure Options where
  graph : Option String
  outputs : List String
  base : Option String
  format : Option ScalarFormat
  numbers : List (NumberOption × Nat)
  listing : Bool
deriving DecidableEq, Repr

/- A decimal number that is a count, perhaps behind a plus sign. -/
def countOf? (s : String) : Option Nat :=
  let digits := match s.toList with
    | '+' :: cs => cs
    | cs => cs
  let n := Nat.ofDigitChars 10 digits 0
  if digits ≠ [] ∧ digits.all Char.isDigit ∧ n < Count.limit then some n else none

namespace Options

/- Nothing has been given. -/
def none : Options :=
  { graph := .none, outputs := [], base := .none, format := .none
    numbers := [], listing := false }

/- Give the value of an option. -/
def setValue
    (o : Options)
    (option : ValueOption)
    (value : String) : Option Options :=
  match option with
  | .output => some { o with outputs := o.outputs ++ [value] }
  | .base =>
      if value = "" ∨ o.base.isSome then .none
      else some { o with base := some value }
  | .format =>
      if o.format.isSome then .none
      else (ScalarFormat.ofName? value).map (fun f => { o with format := some f })
  | .number n =>
      if o.numbers.any (fun p => p.1 = n) then .none
      else (countOf? value).map (fun v => { o with numbers := (n, v) :: o.numbers })

/- Give the name of the graph. -/
def setGraph
    (o : Options)
    (name : String) : Option Options :=
  if name = "" ∨ o.graph.isSome then .none
  else some { o with graph := some name }

/- Ask for a listing. -/
def setListing (o : Options) : Option Options :=
  if o.listing then .none else some { o with listing := true }

/- The value of a number option, if it has been given. -/
def number
    (o : Options)
    (option : NumberOption)
    (default : Nat) : Nat :=
  match o.numbers.find? (fun p => p.1 = option) with
  | some p => p.2
  | .none => default

end Options

------------------------------------------------------------
-- Invocations
------------------------------------------------------------

/- A compilation that the command is asked for. -/
structure Invocation where
  graph : String
  outputs : List String
  base : Option String
  machine : Machine
  lookahead : Nat
  listing : Bool
deriving DecidableEq, Repr

/- The invocation of options, if the graph and an output are given. -/
def Options.invocation? (o : Options) : Option Invocation :=
  match o.graph, o.outputs with
  | some graph, _ :: _ =>
      let d := Machine.standard
      some
        { graph
          outputs := o.outputs
          base := o.base
          machine :=
            { format := o.format.getD d.format
              arraySize := o.number .arraySize d.arraySize
              localDepth := o.number .localDepth d.localDepth
              accumulatorDepth := o.number .accumulatorDepth d.accumulatorDepth
              dram0Depth := o.number .dram0Depth d.dram0Depth
              dram1Depth := o.number .dram1Depth d.dram1Depth
              busWidth := o.number .busWidth d.busWidth }
          lookahead := o.number .lookahead defaultLookahead
          listing := o.listing }
  | _, _ => .none

/- Why reading arguments stops without a compilation. -/
inductive Stop where
| usage
| version
| help
deriving DecidableEq, Repr

/-
  The options so far, an option whose value is the next argument,
  and whether only the graph can follow.
-/
structure ArgumentState where
  options : Options
  awaiting : Option ValueOption
  graphOnly : Bool
deriving DecidableEq, Repr

namespace ArgumentState

/- No argument has been read. -/
def start : ArgumentState :=
  { options := Options.none, awaiting := none, graphOnly := false }

/- Go on with changed options. -/
def continueWith
    (s : ArgumentState)
    (options : Option Options) : Except Stop ArgumentState :=
  match options with
  | some options => .ok { s with options, awaiting := none }
  | none => .error .usage

/- Read an option by its long name. -/
def readLong
    (s : ArgumentState)
    (cs : List Char) : Except Stop ArgumentState :=
  let name := String.ofList (cs.takeWhile (fun c => c ≠ '='))
  match cs.dropWhile (fun c => c ≠ '=') with
  | [] =>
      if name = "version" then .error .version
      else if name = "help" then .error .help
      else if name = "listing" then s.continueWith s.options.setListing
      else
        match ValueOption.ofName? name with
        | some option => .ok { s with awaiting := some option }
        | none => .error .usage
  | _ :: value =>
      match ValueOption.ofName? name with
      | some option => s.continueWith (s.options.setValue option (String.ofList value))
      | none => .error .usage

/- Read options by their letters. -/
def readShort
    (s : ArgumentState) : List Char → Except Stop ArgumentState
| [] => .ok s
| 'V' :: _ => .error .version
| 'h' :: _ => .error .help
| 'l' :: cs =>
    match s.continueWith s.options.setListing with
    | .error e => .error e
    | .ok s => readShort s cs
| ['o'] => .ok { s with awaiting := some .base }
| 'o' :: '=' :: cs => s.continueWith (s.options.setValue .base (String.ofList cs))
| 'o' :: cs => s.continueWith (s.options.setValue .base (String.ofList cs))
| _ => .error .usage

/- An argument that starts with a dash and is more than a dash. -/
def looksLikeOption : List Char → Bool
| '-' :: _ :: _ => true
| _ => false

/- Read one argument. -/
def readArgument
    (s : ArgumentState)
    (argument : String) : Except Stop ArgumentState :=
  let cs := argument.toList
  match s.awaiting with
  | some option =>
      if looksLikeOption cs then .error .usage
      else s.continueWith (s.options.setValue option argument)
  | none =>
      if s.graphOnly then s.continueWith (s.options.setGraph argument)
      else
        match cs with
        | ['-', '-'] => .ok { s with graphOnly := true }
        | '-' :: '-' :: name => s.readLong name
        | '-' :: c :: rest => s.readShort (c :: rest)
        | _ => s.continueWith (s.options.setGraph argument)

end ArgumentState

/- The compilation that arguments ask for. -/
def parseArguments (arguments : List String) : Except Stop Invocation :=
  match arguments.foldlM ArgumentState.readArgument ArgumentState.start with
  | .error stop => .error stop
  | .ok s =>
      match s.awaiting, s.options.invocation? with
      | none, some i => .ok i
      | _, _ => .error .usage

end Systolic
