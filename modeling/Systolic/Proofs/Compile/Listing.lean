import Mathlib.Data.List.Induction
import Systolic.Proofs.Compile.Meaning
import Systolic.Proofs.Compile.Stream
import Systolic.Proofs.Graph.Parsing
import Systolic.Proofs.Instruction.Listing
import Systolic.Proofs.Lowering.Names

/-
  This file proves that the listing of a compiled network agrees
  with its stream. Below the lines of its operations, it has one
  line for each instruction, and these lines determine the bytes.

  Key definitions include:
    * `Compiled.Legible`
    * `Compiled.Lists`

  Key theorems include:
    * `Compiled.Lists.eq_of_listing`
    * `Compiles.legible`
    * `Compiles.lists`
    * `compile_lists_stream`
-/

namespace Systolic

------------------------------------------------------------
-- Lists
------------------------------------------------------------

/- The entries of a list, found one after the other. -/
theorem filterMap_range_eq_mapIdx
    {α β : Type}
    (f : Nat → α → β)
    (as : List α) :
    (List.range as.length).filterMap (fun k => as[k]?.map (f k)) =
      as.mapIdx f := by
  induction as using List.reverseRecOn with
  | nil => rfl
  | append_singleton as a ih =>
      rw [List.length_append, List.length_singleton, List.range_succ,
        List.filterMap_append, List.mapIdx_concat, ← ih]
      congr 1
      · apply List.filterMap_congr
        intro k hMem
        rw [List.getElem?_append_left (List.mem_range.mp hMem)]
      · simp

/- A list is known from its entries and their places. -/
theorem eq_of_mapIdx_eq
    {α β : Type}
    {f : Nat → α → β}
    {as bs : List α}
    (hInjective : ∀ k, Function.Injective (f k))
    (hSame : as.mapIdx f = bs.mapIdx f) :
    as = bs := by
  apply List.ext_getElem?
  intro k
  have hEntries := congrArg (·[k]?) hSame
  simp only [List.getElem?_mapIdx] at hEntries
  exact Option.map_injective (hInjective k) hEntries

------------------------------------------------------------
-- Lines of a Listing
------------------------------------------------------------

/- There is no blank in the names of the tensors of a program. -/
def Compiled.Legible (c : Compiled) : Prop :=
  c.tensors.Named (fun name => IsWord name.toList)

/- An operation is described on one line. -/
theorem Operation.isLine_describe
    {table : TensorTable}
    (hNamed : table.Named (fun name => IsWord name.toList))
    (op : Operation) :
    IsLine (op.describe table).toList := by
  have hName : ∀ t, IsLine (table.name t).toList :=
    fun t => (hNamed.name (by decide) t).isLine
  unfold Operation.describe
  split <;>
    simp only [toString, String.toList_append, isLine_append, hName,
      and_true] <;>
    decide

namespace Compiled

variable {c : Compiled} {is : List Instruction} {op : CommittedOp}

/- The text of an instruction behind its number. -/
def numberedLine
    (k : Nat)
    (i : Instruction) : String :=
  columnText 5 k ++ "  " ++ i.text

theorem isLine_numberedLine
    (k : Nat)
    (i : Instruction) :
    IsLine (numberedLine k i).toList := by
  rw [numberedLine, String.toList_append, String.toList_append,
    isLine_append, isLine_append]
  exact ⟨⟨isLine_columnText 5 k, by decide⟩, i.isLine_text⟩

/- A line of an instruction starts with a space or a digit. -/
theorem head?_numberedLine
    (k : Nat)
    (i : Instruction) :
    (numberedLine k i).toList.head? ≠ some ';' := by
  have hNonempty := columnText_ne_nil 5 k
  rw [numberedLine, String.toList_append, String.toList_append,
    List.append_assoc, List.head?_append_of_ne_nil _ hNonempty]
  intro hHead
  rcases mem_columnText (List.mem_of_head? hHead) with hSpace | ⟨d, hDigit⟩
  · cases hSpace
  · exact Nat.digitChar_ne ';' (by decide) hDigit.symm

theorem numberedLine_injective (k : Nat) :
    Function.Injective (fun i => (numberedLine k i).toList) := by
  intro i j hSame
  have hLines := String.toList_injective hSame
  rw [numberedLine, numberedLine, String.append_right_inj] at hLines
  exact Instruction.text_injective hLines

/- The line of an operation. -/
def opLine
    (c : Compiled)
    (op : CommittedOp) : String :=
  s!"; {c.label op} [{op.resource.name}] cycles {op.startCycle}..{op.endCycle}"

/- An operation has its own line and those of its instructions. -/
theorem opLines_eq :
    c.opLines is.toArray op =
      c.opLine op ::
        op.range.filterMap (fun k => is[k]?.map (numberedLine k)) := by
  unfold opLines
  congr 1
  apply List.filterMap_congr
  intro k _
  rw [instructionLine, List.getElem?_toArray]
  rfl

theorem head?_opLine :
    (c.opLine op).toList.head? = some ';' := by
  simp [opLine, toString]

theorem Legible.isLine_opLine
    (hLegible : c.Legible)
    (op : CommittedOp) :
    IsLine (c.opLine op).toList := by
  have hLabel : IsLine (c.label op).toList :=
    op.operation.isLine_describe hLegible
  have hUnit : IsLine op.resource.name.toList := by
    cases op.resource <;> decide
  have hCycle : ∀ n : Nat, IsLine (toString n).toList :=
    fun n => (isWord_toString n).isLine
  change IsLine ("; " ++ c.label op ++ " [" ++ op.resource.name ++
    "] cycles " ++ toString op.startCycle ++ ".." ++
    toString op.endCycle).toList
  simp only [String.toList_append, isLine_append, hLabel, hUnit, hCycle,
    and_true]
  decide

/- All lines of an operation are lines. -/
theorem Legible.isLine_opLines
    {l : String}
    (hLegible : c.Legible)
    (hMem : l ∈ c.opLines is.toArray op) :
    IsLine l.toList := by
  rw [opLines_eq] at hMem
  rcases List.mem_cons.mp hMem with rfl | hLine
  · exact hLegible.isLine_opLine op
  · rcases List.mem_filterMap.mp hLine with ⟨k, -, hK⟩
    rcases Option.map_eq_some_iff.mp hK with ⟨i, -, rfl⟩
    exact isLine_numberedLine k i

/- Without its own line, the lines of its instructions are left. -/
theorem filter_opLines :
    ((c.opLines is.toArray op).map String.toList).filter
        (fun l => l.head? ≠ some ';') =
      op.range.filterMap
        (fun k => is[k]?.map (fun i => (numberedLine k i).toList)) := by
  rw [opLines_eq, List.map_cons, List.filter_cons, head?_opLine,
    if_neg (by simp), List.map_filterMap, List.filter_eq_self.mpr]
  · simp only [Option.map_map, Function.comp_def]
  · intro l hMem
    rcases List.mem_filterMap.mp hMem with ⟨k, -, hK⟩
    rw [Option.map_map] at hK
    rcases Option.map_eq_some_iff.mp hK with ⟨i, -, rfl⟩
    exact decide_eq_true (head?_numberedLine k i)

/- The listing of a legible program shows its instructions in order. -/
theorem Legible.filter_lines
    (hLegible : c.Legible)
    (hRanges :
      c.schedule.ops.flatMap CommittedOp.range =
        List.range c.schedule.instructions.length) :
    (lines c.listing.toList).filter (fun l => l.head? ≠ some ';') =
      c.schedule.instructions.mapIdx
        (fun k i => (numberedLine k i).toList) := by
  have hLines :
      ∀ l ∈ c.schedule.ops.flatMap
          (c.opLines c.schedule.instructions.toArray),
        IsLine l.toList := by
    intro l hMem
    rcases List.mem_flatMap.mp hMem with ⟨op, -, hL⟩
    exact hLegible.isLine_opLines hL
  rw [listing, lines_unlines hLines, List.map_flatMap, List.filter_flatMap]
  simp only [filter_opLines]
  rw [← List.filterMap_flatMap, hRanges, filterMap_range_eq_mapIdx]

end Compiled

------------------------------------------------------------
-- Compiled Networks
------------------------------------------------------------

/-
  The stream, the ranges and the listing of a program for a machine
  agree. The ranges of the committed operations follow each other
  and hold every instruction once, the bytes are the words of the
  instructions and are decoded to them, and but for the lines of
  operations, the listing has the number and the text of each
  instruction.
-/
structure Compiled.Lists
    (c : Compiled)
    (m : Machine) : Prop where
  consecutive :
    CommittedOp.Consecutive c.schedule.ops c.schedule.instructions.length
  partition :
    c.schedule.ops.flatMap CommittedOp.range =
      List.range c.schedule.instructions.length
  layout_eq : WordLayout.ofMachine m = .ok c.layout
  words :
    ∃ words,
      c.schedule.instructions.mapM c.layout.encode = .ok words ∧
        c.schedule.bytes = words.flatten
  decoded :
    c.layout.decodeStream c.schedule.bytes = .ok c.schedule.instructions
  lines_eq :
    (lines c.listing.toList).filter (fun l => l.head? ≠ some ';') =
      c.schedule.instructions.mapIdx
        (fun k i => (columnText 5 k ++ "  " ++ i.text).toList)

/- The listings of programs for one machine determine their bytes. -/
theorem Compiled.Lists.eq_of_listing
    {c c' : Compiled}
    {m : Machine}
    (hLists : c.Lists m)
    (hLists' : c'.Lists m)
    (hListing : c'.listing = c.listing) :
    c'.schedule.instructions = c.schedule.instructions ∧
      c'.schedule.bytes = c.schedule.bytes := by
  have hInstructions :
      c'.schedule.instructions = c.schedule.instructions := by
    refine eq_of_mapIdx_eq Compiled.numberedLine_injective ?_
    calc
      _ = (lines c'.listing.toList).filter (fun l => l.head? ≠ some ';') :=
        hLists'.lines_eq.symm
      _ = (lines c.listing.toList).filter (fun l => l.head? ≠ some ';') := by
        rw [hListing]
      _ = _ := hLists.lines_eq
  have hLayout : c'.layout = c.layout :=
    Except.ok.inj (hLists'.layout_eq.symm.trans hLists.layout_eq)
  rcases hLists.words with ⟨words, hWords, hBytes⟩
  rcases hLists'.words with ⟨words', hWords', hBytes'⟩
  rw [hInstructions, hLayout, hWords] at hWords'
  cases hWords'
  exact ⟨hInstructions, hBytes'.trans hBytes.symm⟩

namespace Compiles

variable {ν : Type} [DecidableEq ν]
variable {net : Network ν} {outputs : List String} {m : Machine}
variable {lookahead : Nat} {nodes roots : List ν}
variable {s : Lowering ν} {run : Run}

/- Names of nodes without blanks give legible programs. -/
theorem legible
    (hStages : Compiles net outputs m lookahead nodes roots s run)
    (hNames : ∀ n, IsWord (net.name n).toList) :
    (Compiled.ofBench run.bench run.schedule).Legible := by
  have hLowered : s.bench.tensors.Named (fun name => IsWord name.toList) := by
    refine hStages.lowersAll.named ?_ ?_
    · intro t tensor hGet
      cases hGet
    · intro n _ name hName
      cases hName with
      | accumulator =>
          rw [String.toList_append, isWord_append]
          exact ⟨hNames n, by decide⟩
      | @holder k => exact hNames k
  exact View.Steps.named (v := .start s.bench s.program) hLowered
    hStages.scheduled.steps_view

theorem lists
    (hStages : Compiles net outputs m lookahead nodes roots s run)
    (hNames : ∀ n, IsWord (net.name n).toList) :
    (Compiled.ofBench run.bench run.schedule).Lists m := by
  have hStreams := hStages.streams
  have hRanges := hStreams.consecutive.flatMap_range
  constructor
  case consecutive => exact hStreams.consecutive
  case partition => exact hRanges
  case layout_eq => exact hStages.ofMachine_layout
  case words => exact hStreams.words
  case decoded => exact hStages.decodeStream
  case lines_eq => exact (hStages.legible hNames).filter_lines hRanges

end Compiles

/- The names of a graph that was read are words. -/
theorem Graph.isWord_name
    {text : String}
    {g : Graph}
    (hParse : Graph.parse text = .ok g)
    (i : Nat) :
    IsWord (g.network.name i).toList := by
  have hName :
      g.network.name i = "" ∨
        ∃ n ∈ g.nodes, g.network.name i = n.name := by
    unfold network
    cases hGet : g.nodes.toArray[i]? with
    | none => simp [hGet]
    | some n =>
        refine .inr ⟨n, ?_, by simp [hGet]⟩
        exact List.mem_of_getElem? (List.getElem?_toArray ▸ hGet)
  rcases hName with hEmpty | ⟨n, hMem, hSame⟩
  · rw [hEmpty]
    decide
  · rw [hSame]
    exact isWord_of_isValueName (isValueName_of_parse hParse hMem)

/- A graph that was read gives a program with a listing that agrees. -/
theorem Graph.lists_of_compile
    {text : String}
    {g : Graph}
    {outputs : List String}
    {m : Machine}
    {lookahead : Nat}
    {c : Compiled}
    (hParse : Graph.parse text = .ok g)
    (hCompile : compile g.network outputs m lookahead = .ok c) :
    c.Lists m := by
  rcases compiles_of_compile hCompile with
    ⟨nodes, roots, s, run, hStages, rfl⟩
  exact hStages.lists (isWord_name hParse)

/-
  The stream, the ranges and the listing of a compiled graph agree,
  and the listing determines the stream: no two instructions share
  a text, and programs for one machine with the same listing have
  the same bytes.
-/
theorem compile_lists_stream
    {text : String}
    {g : Graph}
    (hParse : Graph.parse text = .ok g)
    (outputs : List String)
    {m : Machine}
    {lookahead : Nat}
    {c : Compiled}
    (hCompile : compile g.network outputs m lookahead = .ok c) :
    c.Lists m ∧
      Function.Injective Instruction.text ∧
      ∀ text' g' outputs' lookahead' c',
        Graph.parse text' = .ok g' →
        compile g'.network outputs' m lookahead' = .ok c' →
        c'.listing = c.listing →
          c'.schedule.instructions = c.schedule.instructions ∧
            c'.schedule.bytes = c.schedule.bytes := by
  have hLists := Graph.lists_of_compile hParse hCompile
  refine ⟨hLists, Instruction.text_injective, ?_⟩
  intro text' g' outputs' lookahead' c' hParse' hCompile' hListing
  exact hLists.eq_of_listing (Graph.lists_of_compile hParse' hCompile')
    hListing

/- The text of a sum of two inputs that are rectified first. -/
def rectifiedSumText : String :=
  "%a = input [1, 2]\n%b = input [1, 2]\n%x = relu %a\n%y = relu %b\n" ++
    "%sum = add %x, %y\n"

/-
  Two tensors are spilled and reloaded among sixteen instructions.
  The same output requested again gives the same listing, and so
  the same bytes.
-/
theorem compile_lists_stream_rectifiedSum :
    ∃ g c c',
      Graph.parse rectifiedSumText = .ok g ∧
      compile g.network ["sum"] oneVector 8 = .ok c ∧
      compile g.network ["sum", "sum"] oneVector 8 = .ok c' ∧
      c.schedule.spills = 2 ∧
      c.schedule.instructions.length = 16 ∧
      c.Lists oneVector ∧
      c'.schedule.bytes = c.schedule.bytes := by
  have hFacts :
      (Graph.parse rectifiedSumText).toOption.bind (fun g =>
        (compile g.network ["sum"] oneVector 8).toOption.map (fun c =>
          (c.schedule.spills, c.schedule.instructions.length))) =
      some (2, 16) := by
    decide +kernel
  cases hParse : Graph.parse rectifiedSumText with
  | error e =>
      rw [hParse] at hFacts
      cases hFacts
  | ok g =>
      have hAgain :
          compile g.network ["sum", "sum"] oneVector 8 =
            compile g.network ["sum"] oneVector 8 := by
        unfold compile
        rfl
      cases hCompile : compile g.network ["sum"] oneVector 8 with
      | error e =>
          simp only [hParse, hCompile, Except.toOption, Option.bind_some,
            Option.map_none] at hFacts
          cases hFacts
      | ok c =>
          simp only [hParse, hCompile, Except.toOption, Option.bind_some,
            Option.map_some, Option.some.injEq, Prod.mk.injEq] at hFacts
          rcases compile_lists_stream hParse ["sum"] hCompile with
            ⟨hLists, -, hSame⟩
          rw [hCompile] at hAgain
          exact ⟨g, c, c, rfl, hCompile, hAgain, hFacts.1, hFacts.2, hLists,
            (hSame _ g _ _ c hParse hAgain rfl).2⟩

end Systolic
