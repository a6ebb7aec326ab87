import Systolic.Output.Compiled
import Systolic.Proofs.Graph.Denotation
import Systolic.Proofs.Graph.Parsing
import Systolic.Proofs.Graph.Renumber
import Systolic.Proofs.Lowering.Renumber

/-
  This file proves that a compilation depends on nothing but the
  nodes that the outputs need: neither on their numbers, nor on
  other nodes, nor on the order of the lines that define them, nor
  on how often an output is requested.

  Key definitions include:
    * `Definition.move`

  Key theorems include:
    * `lowerNetwork_renumber`
    * `compile_renumber`
    * `Graph.renumbers_ofDefinitions`
    * `distinct_append_cons`
    * `compile_depends_on_needed`
-/

namespace Systolic

------------------------------------------------------------
-- Stages
------------------------------------------------------------

section Stages

variable {ν μ : Type} [DecidableEq ν]
variable {F : Network ν} {G : Network μ} {outputs : List String} {φ : ν → μ}

/- The plans of two networks differ in the numbers of their nodes. -/
theorem Network.Renumbers.plan
    {nodes roots : List ν}
    (hRenumbers : F.Renumbers G outputs φ)
    (hOrder : F.order outputs = .ok nodes)
    (hRoots : F.roots outputs = .ok roots) :
    Plan.Renumbers
      { network := F, nodes, outputs := roots }
      { network := G, nodes := nodes.map φ, outputs := roots.map φ }
      (F.Needed outputs) φ := by
  constructor
  case inj => exact fun hN hM hSame => hRenumbers.bijOn.injOn hN hM hSame
  case closed => exact fun hN hOperand => .operand hN hOperand
  case name_eq => exact fun hN => hRenumbers.name_eq _ hN
  case op_eq => exact fun hN => hRenumbers.op_eq _ hN
  case operands_map => exact fun hN => hRenumbers.operands_map _ hN
  case nodes_mem => exact fun n hMem => (Network.mem_order_iff hOrder).mp hMem
  case nodes_map => rfl
  case outputs_mem =>
    intro n hMem
    rcases (Network.roots_eq_ok hRoots n).mp hMem with ⟨name, hName, hFind⟩
    exact .output hName hFind
  case outputs_map => rfl

variable [DecidableEq μ]

/- Lowering does not see the numbers of nodes. -/
theorem lowerNetwork_renumber
    (hF : F.WellFormed)
    (hG : G.WellFormed)
    (hRenumbers : F.Renumbers G outputs φ)
    (bench : Workbench) :
    lowerNetwork G outputs bench = lowerNetwork F outputs bench := by
  have hRoots := hRenumbers.roots_map (fun _ hMem => hMem)
  unfold lowerNetwork
  rw [hRenumbers.order_map hF hG]
  cases hOrder : F.order outputs with
  | error e => rfl
  | ok nodes =>
      simp only [Except.map, lowerNodes, Plan.ofNodes]
      rw [hRoots]
      cases hFound : F.roots outputs with
      | error e => rfl
      | ok roots =>
          have hMirrors :
              Lower.Mirrors (F.Needed outputs) φ .same
                (nodes.forM (Lower.node
                  { network := F, nodes, outputs := roots }))
                ((nodes.map φ).forM (Lower.node
                  { network := G, nodes := nodes.map φ
                    outputs := roots.map φ }))
                (Lowering.start bench) :=
            Lower.forM_node_mirrors (hRenumbers.plan hOrder hFound)
              (List.forall_mem_nil _)
          have hSame : bench.recast .same = bench := rfl
          simp only [Except.map]
          rcases hMirrors.start_cases with
            ⟨_, s, hRun, hRun'⟩ | ⟨e, s, t, hRun, hRun'⟩
          · rw [hSame] at hRun'
            rw [hRun, hRun']
            rfl
          · rw [hSame] at hRun'
            rw [hRun, hRun']

/- A compilation does not see the numbers of nodes. -/
theorem compile_renumber
    (hF : F.WellFormed)
    (hG : G.WellFormed)
    (hRenumbers : F.Renumbers G outputs φ)
    (m : Machine)
    (lookahead : Nat) :
    compile G outputs m lookahead = compile F outputs m lookahead := by
  have hDistinct : F.Renumbers G (distinct outputs) φ :=
    hRenumbers.of_mem_iff (fun _ => mem_distinct)
  unfold compile
  cases Workbench.ofMachine m with
  | error e => rfl
  | ok bench =>
      dsimp only
      rw [lowerNetwork_renumber hF hG hDistinct bench]

end Stages

------------------------------------------------------------
-- Graphs of Definitions
------------------------------------------------------------

namespace Definition

/- The place of a definition among others. -/
def move
    (defs defs' : List Definition)
    (i : Nat) : Nat :=
  (defs[i]?.bind (fun d => place? defs' d.name)).getD 0

/- A definition that is among others is where it is moved to. -/
theorem move_spec
    {defs defs' : List Definition}
    {i : Nat}
    {d : Definition}
    (hDefs' : Consistent defs')
    (hAmong : ∀ d ∈ defs, d ∈ defs')
    (hGet : defs[i]? = some d) :
    place? defs' d.name = some (move defs defs' i) ∧
      defs'[move defs defs' i]? = some d := by
  rcases List.mem_iff_getElem?.mp (hAmong d (List.mem_of_getElem? hGet)) with
    ⟨j, hOther⟩
  have hPlace := hDefs'.place?_eq_some hOther
  have hMove : move defs defs' i = j := by
    rw [move, hGet, Option.bind_some, hPlace, Option.getD_some]
  rw [hMove]
  exact ⟨hPlace, hOther⟩

end Definition

/-
  Definitions among others give the same network, if no output
  is defined by the others only.
-/
theorem Graph.renumbers_ofDefinitions
    {defs defs' : List Definition}
    {outputs : List String}
    (hDefs : Definition.Consistent defs)
    (hDefs' : Definition.Consistent defs')
    (hAmong : ∀ d ∈ defs, d ∈ defs')
    (hOutputs :
      ∀ name ∈ outputs, name ∈ defs'.map Definition.name →
        name ∈ defs.map Definition.name) :
    (ofDefinitions defs).network.Renumbers (ofDefinitions defs').network
      outputs (Definition.move defs defs') := by
  have hMove := fun i d hGet =>
    Definition.move_spec (i := i) (d := d) hDefs' hAmong hGet
  have hNeeded :
      ∀ i, (ofDefinitions defs).network.Needed outputs i →
        ∃ d, defs[i]? = some d := by
    intro i hNeeded
    have hMem := hNeeded.mem_nodes wellFormed_ofDefinitions
    rw [nodes_ofDefinitions, List.mem_range] at hMem
    exact ⟨defs[i], List.getElem?_eq_getElem hMem⟩
  -- A name that has a place among the first has one that is moved.
  have hPlace :
      ∀ name, name ∈ defs.map Definition.name →
        Definition.place? defs' name =
          (Definition.place? defs name).map (Definition.move defs defs') := by
    intro name hName
    rcases Option.isSome_iff_exists.mp
        (Definition.place?_isSome_iff.mpr hName) with
      ⟨i, hI⟩
    rcases Definition.of_place?_eq_some hI with ⟨d, hGet, rfl⟩
    rw [hI, (hMove i d hGet).1, Option.map_some]
  refine .of_injOn ?_ ?_ ?_ ?_ ?_
  · intro i hI j hJ hSame
    rcases hNeeded i hI with ⟨d, hGet⟩
    rcases hNeeded j hJ with ⟨e, hGet'⟩
    have hD := (hMove i d hGet).2
    have hE := (hMove j e hGet').2
    rw [hSame] at hD
    cases hD.symm.trans hE
    exact Option.some.inj
      ((hDefs.place?_eq_some hGet).symm.trans (hDefs.place?_eq_some hGet'))
  · intro name hName
    rw [find?_ofDefinitions, find?_ofDefinitions]
    by_cases hKnown : name ∈ defs.map Definition.name
    · exact hPlace name hKnown
    · have hNone := mt Definition.place?_isSome_iff.mp hKnown
      have hNone' :=
        mt Definition.place?_isSome_iff.mp (mt (hOutputs name hName) hKnown)
      rw [Option.not_isSome_iff_eq_none] at hNone hNone'
      rw [hNone, hNone', Option.map_none]
  · intro i hI
    rcases hNeeded i hI with ⟨d, hGet⟩
    rw [name_ofDefinitions hGet, name_ofDefinitions (hMove i d hGet).2]
  · intro i hI
    rcases hNeeded i hI with ⟨d, hGet⟩
    rw [op_ofDefinitions hGet, op_ofDefinitions (hMove i d hGet).2]
  · intro i hI
    rcases hNeeded i hI with ⟨d, hGet⟩
    rw [operands_ofDefinitions hGet,
      operands_ofDefinitions (hMove i d hGet).2, List.map_filterMap]
    apply List.filterMap_congr
    intro name hMem
    exact hPlace name
      (hDefs.known d (List.mem_of_getElem? hGet) name hMem)

/- A text with more lines is compiled alike. -/
theorem Graph.compile_of_lines
    {a b : String}
    {more : List (List Char)}
    {g h : Graph}
    {outputs : List String}
    (hLines : (lines b.toList).Perm (lines a.toList ++ more))
    (hG : Graph.parse a = .ok g)
    (hH : Graph.parse b = .ok h)
    (hOutputs :
      ∀ name ∈ outputs, (h.lookup? name).isSome →
        (g.lookup? name).isSome)
    (m : Machine)
    (lookahead : Nat) :
    compile h.network outputs m lookahead =
      compile g.network outputs m lookahead := by
  rcases parse_eq_ok_iff.mp hG with ⟨-, hDefs, rfl⟩
  rcases parse_eq_ok_iff.mp hH with ⟨-, hDefs', rfl⟩
  have hFind := find?_ofDefinitions (definitions a)
  have hFind' := find?_ofDefinitions (definitions b)
  refine compile_renumber wellFormed_ofDefinitions wellFormed_ofDefinitions
    (renumbers_ofDefinitions hDefs hDefs' ?_ ?_) m lookahead
  · intro d hMem
    rcases List.mem_flatMap.mp hMem with ⟨cs, hLine, hD⟩
    refine List.mem_flatMap.mpr ⟨cs, ?_, hD⟩
    exact hLines.mem_iff.mpr (List.mem_append_left _ hLine)
  · intro name hName hKnown
    rw [← Definition.place?_isSome_iff, ← hFind'] at hKnown
    rw [← Definition.place?_isSome_iff, ← hFind]
    exact hOutputs name hName hKnown

/- Lines in another order are read as well. -/
theorem Graph.exists_parse_of_perm
    {a b : String}
    {g : Graph}
    (hLines : (lines b.toList).Perm (lines a.toList))
    (hG : Graph.parse a = .ok g) :
    ∃ h, Graph.parse b = .ok h ∧
      ∀ name, (h.lookup? name).isSome → (g.lookup? name).isSome := by
  rcases parse_eq_ok_iff.mp hG with ⟨hReadable, hDefs, rfl⟩
  have hPerm : (definitions b).Perm (definitions a) :=
    hLines.flatMap_right lineDefinitions
  have hNames :
      ∀ name, name ∈ (definitions b).map Definition.name ↔
        name ∈ (definitions a).map Definition.name :=
    fun name => (hPerm.map Definition.name).mem_iff
  refine ⟨ofDefinitions (definitions b), parse_eq_ok_iff.mpr ?_, ?_⟩
  · refine ⟨?_, ⟨?_, ?_⟩, rfl⟩
    · exact fun cs hMem => hReadable cs (hLines.mem_iff.mp hMem)
    · exact (hPerm.map Definition.name).nodup_iff.mpr hDefs.nodup
    · intro d hMem name hOperand
      rw [hNames]
      exact hDefs.known d (hPerm.mem_iff.mp hMem) name hOperand
  · intro name hKnown
    have hFind := find?_ofDefinitions (definitions a) name
    have hFind' := find?_ofDefinitions (definitions b) name
    change ((ofDefinitions (definitions b)).network.find? name).isSome
      at hKnown
    change ((ofDefinitions (definitions a)).network.find? name).isSome
    rw [hFind', Definition.place?_isSome_iff, hNames] at hKnown
    rw [hFind, Definition.place?_isSome_iff]
    exact hKnown

------------------------------------------------------------
-- Repeated Outputs
------------------------------------------------------------

section Repetition

variable {α : Type} [DecidableEq α]

/- Removing repetitions and choosing elements commute. -/
theorem filter_distinct
    (f : α → Bool)
    (as : List α) :
    (distinct as).filter f = distinct (as.filter f) := by
  induction as with
  | nil => rfl
  | cons a as ih =>
      rw [distinct, List.filter_cons, List.filter_cons]
      by_cases hA : f a = true
      · rw [if_pos hA, if_pos hA, distinct, ← ih, List.filter_filter,
          List.filter_filter]
        simp only [Bool.and_comm]
      · rw [if_neg hA, if_neg hA, ← ih, List.filter_filter]
        apply List.filter_congr
        intro b _
        have hOther : f b = true → b ≠ a := by
          rintro hB rfl
          exact hA hB
        by_cases hB : f b = true
        · simp [hB, hOther hB]
        · simp [hB]

/- A repetition of an element that comes later is removed. -/
theorem distinct_append_cons
    {a : α}
    {as : List α}
    (hMem : a ∈ as)
    (bs : List α) :
    distinct (as ++ a :: bs) = distinct (as ++ bs) := by
  induction as with
  | nil => cases hMem
  | cons b as ih =>
      rw [List.cons_append, List.cons_append, distinct, distinct]
      by_cases hSame : a = b
      · subst hSame
        rw [filter_distinct, filter_distinct]
        simp [List.filter_append]
      · have hLater : a ∈ as := by
          rcases List.mem_cons.mp hMem with hFirst | hLater
          · exact absurd hFirst hSame
          · exact hLater
        rw [ih hLater]

end Repetition

------------------------------------------------------------
-- Main Result
------------------------------------------------------------

/-
  A compilation depends on nothing but the nodes that the outputs
  need. Networks that differ in the numbers of those nodes, texts
  with their lines in another order or with lines for other
  values, and outputs that are requested again give the same
  program or the same error.
-/
theorem compile_depends_on_needed :
    (∀ {ν μ : Type} [DecidableEq ν] [DecidableEq μ]
      (F : Network ν) (G : Network μ) (outputs : List String) (φ : ν → μ),
      F.WellFormed → G.WellFormed → F.Renumbers G outputs φ →
        ∀ m lookahead,
          compile G outputs m lookahead = compile F outputs m lookahead) ∧
    (∀ (a b : String) (g : Graph),
      (lines b.toList).Perm (lines a.toList) → Graph.parse a = .ok g →
        ∃ h, Graph.parse b = .ok h ∧
          ∀ outputs m lookahead,
            compile h.network outputs m lookahead =
              compile g.network outputs m lookahead) ∧
    (∀ (a b : String) (more : List (List Char)) (g h : Graph)
      (outputs : List String),
      (lines b.toList).Perm (lines a.toList ++ more) →
        Graph.parse a = .ok g → Graph.parse b = .ok h →
        (∀ name ∈ outputs, (h.lookup? name).isSome →
          (g.lookup? name).isSome) →
        ∀ m lookahead,
          compile h.network outputs m lookahead =
            compile g.network outputs m lookahead) ∧
    (∀ {ν : Type} [DecidableEq ν] (net : Network ν)
      (before after : List String) (name : String),
      name ∈ before →
        ∀ m lookahead,
          compile net (before ++ name :: after) m lookahead =
            compile net (before ++ after) m lookahead) := by
  refine ⟨?_, ?_, ?_, ?_⟩
  · intro ν μ _ _ F G outputs φ hF hG hRenumbers m lookahead
    exact compile_renumber hF hG hRenumbers m lookahead
  · intro a b g hLines hG
    rcases Graph.exists_parse_of_perm hLines hG with ⟨h, hH, hKnown⟩
    refine ⟨h, hH, ?_⟩
    intro outputs m lookahead
    have hMore : (lines b.toList).Perm (lines a.toList ++ []) := by
      rw [List.append_nil]
      exact hLines
    exact Graph.compile_of_lines hMore hG hH (fun name _ => hKnown name)
      m lookahead
  · intro a b more g h outputs hLines hG hH hOutputs m lookahead
    exact Graph.compile_of_lines hLines hG hH hOutputs m lookahead
  · intro ν _ net before after name hMem m lookahead
    unfold compile
    rw [distinct_append_cons hMem]

/-
  The residual block with its nodes numbered backwards, and a node
  that doubles its input.
-/
def doubledBlock : Network (Fin 6) where
  nodes := [0, 1, 2, 3, 4, 5]
  find? := fun name =>
    if name = "doubled" then some 0
    else if name = "sum" then some 1
    else if name = "rectified" then some 2
    else none
  name := fun n =>
    ["doubled", "sum", "rectified", "product", "weights", "input"].getD n ""
  op := fun n =>
    [NodeOp.add, .add, .relu, .matMul, .constant [2, 2],
      .input [2, 2]].getD n .add
  operands := fun n => [[5, 5], [2, 5], [3], [5, 4], [], []].getD n []

/- The number of a node of the residual block in the other network. -/
def doubledBlock.place (n : Fin 5) : Fin 6 :=
  n.rev.succ

/- The text of a rectified product. -/
def productText : String :=
  "%x = input [2, 2]\n%w = const [2, 2]\n%h = matmul %x, %w\n%y = relu %h\n"

/- The text of a rectified product, with a sum that it does not need. -/
def productSumText : String :=
  "%y = relu %h\n%s = add %x, %h\n%x = input [2, 2]\n" ++
    "%h = matmul %x, %w\n%w = const [2, 2]\n"

/-
  Neither numbers, nor a doubled input, nor a repeated output, nor
  the order of lines with a sum among them change these programs.
-/
theorem compile_depends_on_needed_doubledBlock :
    (∃ c,
      compile residualBlock ["sum", "rectified"] Machine.standard 8 =
        .ok c ∧
      compile doubledBlock ["sum", "rectified"] Machine.standard 8 =
        .ok c ∧
      compile doubledBlock ["sum", "rectified", "sum"]
        Machine.standard 8 = .ok c) ∧
    (∃ g h c,
      Graph.parse productText = .ok g ∧
      Graph.parse productSumText = .ok h ∧
      compile g.network ["y"] Machine.standard 8 = .ok c ∧
      compile h.network ["y"] Machine.standard 8 = .ok c) := by
  rcases compile_depends_on_needed with
    ⟨hNumbers, -, hMore, hRepeat⟩
  have hNodes : ∀ n, n ∈ residualBlock.nodes := by decide
  have hNodes' : ∀ n, n ∈ doubledBlock.nodes := by decide
  have hRenumbers :
      residualBlock.Renumbers doubledBlock ["sum", "rectified"]
        doubledBlock.place := by
    refine .of_injOn ?_ (by decide) ?_ ?_ ?_
    · have hInj : ∀ n k, doubledBlock.place n = doubledBlock.place k →
          n = k := by
        decide
      exact fun n _ k _ hSame => hInj n k hSame
    · exact fun n _ => (by decide : ∀ n,
        doubledBlock.name (doubledBlock.place n) = residualBlock.name n) n
    · exact fun n _ => (by decide : ∀ n,
        doubledBlock.op (doubledBlock.place n) = residualBlock.op n) n
    · exact fun n _ => (by decide : ∀ n,
        doubledBlock.operands (doubledBlock.place n) =
          (residualBlock.operands n).map doubledBlock.place) n
  have hSame := hNumbers residualBlock doubledBlock ["sum", "rectified"]
    doubledBlock.place
    ⟨fun _ n _ => hNodes n, fun _ _ k _ => hNodes k⟩
    ⟨fun _ n _ => hNodes' n, fun _ _ k _ => hNodes' k⟩
    hRenumbers Machine.standard 8
  have hAgain := hRepeat doubledBlock ["sum", "rectified"] [] "sum"
    (by decide) Machine.standard 8
  constructor
  · have hOk :
        (compile residualBlock ["sum", "rectified"]
          Machine.standard 8).toOption.isSome = true := by
      decide +kernel
    cases hC : compile residualBlock ["sum", "rectified"]
        Machine.standard 8 with
    | error e =>
        rw [hC] at hOk
        cases hOk
    | ok c =>
        rw [hC] at hSame
        exact ⟨c, rfl, hSame, hAgain.trans hSame⟩
  · have hOk :
        (Graph.parse productText).toOption.map (fun g =>
          ((g.lookup? "y").isSome,
            (compile g.network ["y"] Machine.standard 8).toOption.isSome)) =
        some (true, true) := by
      decide +kernel
    have hOk' : (Graph.parse productSumText).toOption.isSome = true := by
      decide +kernel
    have hLines :
        (lines productSumText.toList).Perm
          (lines productText.toList ++ ["%s = add %x, %h".toList]) := by
      decide +kernel
    cases hG : Graph.parse productText with
    | error e =>
        rw [hG] at hOk
        cases hOk
    | ok g =>
        cases hH : Graph.parse productSumText with
        | error e =>
            rw [hH] at hOk'
            cases hOk'
        | ok h =>
            rw [hG] at hOk
            simp only [Except.toOption, Option.map_some, Option.some.injEq,
              Prod.mk.injEq] at hOk
            have hY :
                ∀ name ∈ ["y"], (h.lookup? name).isSome →
                  (g.lookup? name).isSome := by
              intro name hMem _
              rw [List.mem_singleton.mp hMem]
              exact hOk.1
            have hSum := hMore productText productSumText _ g h ["y"]
              hLines hG hH hY Machine.standard 8
            cases hC : compile g.network ["y"] Machine.standard 8 with
            | error e =>
                rw [hC] at hOk
                cases hOk.2
            | ok c => exact ⟨g, h, c, rfl, rfl, hC, hSum.trans hC⟩

end Systolic
