import Systolic.Proofs.Graph.Grammar

/-
  This file proves that the text of a graph that was read is read
  as that graph again. The line of a node has the tokens of its
  definition, and the lines of the text are those of the nodes.

  Key definitions include:
    * `Definition.line`
    * `IsPrinted`

  Key theorems include:
    * `Listed.exists_printed`
    * `Definition.OnLine.line_onLine`
    * `Graph.contentLines_text`
    * `Graph.spells_text`
    * `Graph.parse_text_of_parse`
-/

namespace Systolic

variable {tokens : List (List Char)} {cs : List Char}

------------------------------------------------------------
-- Printed Tokens
------------------------------------------------------------

/- Blanks may be put in front of a token. -/
theorem BeginsWith.blanks_append
    {token blanks rest : List Char}
    (hBegins : BeginsWith (token :: tokens) cs rest)
    (hBlanks : IsBlanks blanks) :
    BeginsWith (token :: tokens) (blanks ++ cs) rest := by
  cases hBegins with
  | cons hOwn hTokens =>
      rw [← List.append_assoc]
      refine .cons ?_ hTokens
      rw [IsBlanks, List.all_append, hBlanks, hOwn, Bool.and_self]

/- A token stands in front of what follows it. -/
theorem beginsWith_append
    (token rest : List Char) :
    BeginsWith [token] (token ++ rest) rest :=
  BeginsWith.singleton_iff.mpr ⟨[], rfl, rfl⟩

theorem beginsWith_space_append
    (token rest : List Char) :
    BeginsWith [token] (' ' :: (token ++ rest)) rest :=
  BeginsWith.singleton_iff.mpr ⟨[' '], by decide, rfl⟩

/-
  Items that are printed as their tokens, with a comma and a space
  between them, are printed as a list.
-/
theorem Listed.exists_printed
    {α : Type}
    {Item : α → List (List Char) → Prop}
    {print : α → List Char}
    {as : List α}
    (hPrint :
      ∀ {a tokens}, Item a tokens →
        ∃ token others, Item a (token :: others) ∧
          ∀ rest, BeginsWith (token :: others) (print a ++ rest) rest)
    (hList : Listed Item as tokens) :
    ∃ token others, Listed Item as (token :: others) ∧
      ∀ rest, BeginsWith (token :: others)
        ([',', ' '].intercalate (as.map print) ++ rest) rest := by
  induction hList with
  | last hItem =>
      rcases hPrint hItem with ⟨token, others, hPrinted, hBegins⟩
      refine ⟨token, others, .last hPrinted, ?_⟩
      rw [List.map_singleton, List.intercalate_singleton]
      exact hBegins
  | @more a as _ _ hItem hRest ih =>
      rcases hPrint hItem with ⟨token, others, hPrinted, hBegins⟩
      rcases ih with ⟨next, later, hPrintedRest, hBeginsRest⟩
      refine ⟨token, others ++ ([','] :: next :: later),
        .more hPrinted hPrintedRest, ?_⟩
      intro rest
      have hNonempty : as ≠ [] := by
        rintro rfl
        cases hRest
      rcases List.exists_cons_of_ne_nil hNonempty with ⟨b, bs, rfl⟩
      have hTail := (beginsWith_append [','] _).append
        ((hBeginsRest rest).blanks_append (show IsBlanks [' '] by decide))
      rw [List.map_cons, List.map_cons, List.intercalate_cons_cons,
        List.append_assoc, List.append_assoc]
      exact (hBegins _).append hTail

/- A number that is a dimension is printed as one. -/
theorem DimensionPhrase.printed
    {n : Nat}
    (hPhrase : DimensionPhrase n tokens) :
    ∃ token others, DimensionPhrase n (token :: others) ∧
      ∀ rest, BeginsWith (token :: others)
        ((toString n).toList ++ rest) rest := by
  rcases hPhrase with ⟨token, hDimension, -⟩
  refine ⟨_, [], ⟨(toString n).toList, ?_, rfl⟩, beginsWith_append _⟩
  rw [Nat.toString_eq_ofList_toDigits, String.toList_ofList]
  constructor
  case nonempty => exact Nat.toDigits_ne_nil
  case digits =>
    intro c hMem
    exact Nat.isDigit_of_mem_toDigits (by decide) (by decide) hMem
  case value => exact Nat.ofDigitChars_ten_toDigits
  case pos => exact hDimension.pos
  case bounded => exact hDimension.bounded

theorem ValuePhrase.printed
    {name : String}
    (hPhrase : ValuePhrase name tokens) :
    ∃ token others, ValuePhrase name (token :: others) ∧
      ∀ rest, BeginsWith (token :: others)
        (("%" ++ name).toList ++ rest) rest := by
  refine ⟨['%'], [name.toList], ⟨hPhrase.1, rfl⟩, ?_⟩
  intro rest
  rw [String.toList_append, List.append_assoc]
  exact (beginsWith_append ['%'] _).append (beginsWith_append name.toList _)

/- A shape of dimensions is printed as one. -/
theorem ShapePhrase.printed
    {shape : List Nat}
    (hPhrase : ShapePhrase shape tokens) :
    ∃ tokens', ShapePhrase shape tokens' ∧
      BeginsWith tokens' (shapeText shape).toList [] := by
  rcases hPhrase with ⟨inner, hList, -⟩
  rcases hList.exists_printed DimensionPhrase.printed with
    ⟨token, others, hPrinted, hBegins⟩
  refine ⟨_, ⟨_, hPrinted, rfl⟩, ?_⟩
  have hClosed := (hBegins [']']).append (beginsWith_append [']'] [])
  have hAll := (beginsWith_append ['['] _).append hClosed
  simpa [shapeText, String.toList_intercalate, Function.comp_def] using hAll

------------------------------------------------------------
-- Lines of Definitions
------------------------------------------------------------

namespace Definition

/- What a definition has after the name of its operation. -/
def argumentText (d : Definition) : String :=
  match d.op.shape? with
  | some shape => shapeText shape
  | none => ", ".intercalate (d.operands.map (fun name => "%" ++ name))

/- The line of a definition. -/
def line (d : Definition) : String :=
  "%" ++ d.name ++ " = " ++ d.op.name ++ " " ++ d.argumentText

end Definition

theorem shape?_of_applied
    {op : NodeOp}
    (hOp : op ∈ [NodeOp.matMul, .add, .relu]) :
    op.shape? = none := by
  simp only [List.mem_cons, List.not_mem_nil, or_false] at hOp
  rcases hOp with rfl | rfl | rfl <;> rfl

/- Arguments are printed as their tokens. -/
theorem ArgumentPhrase.printed
    {d : Definition}
    (hPhrase : ArgumentPhrase d.op d.operands tokens) :
    ∃ tokens', ArgumentPhrase d.op d.operands tokens' ∧
      BeginsWith tokens' d.argumentText.toList [] := by
  rcases d with ⟨name, op, operands⟩
  cases hPhrase with
  | input hShape =>
      rcases hShape.printed with ⟨tokens', hPrinted, hBegins⟩
      exact ⟨tokens', .input hPrinted, hBegins⟩
  | constant hShape =>
      rcases hShape.printed with ⟨tokens', hPrinted, hBegins⟩
      exact ⟨tokens', .constant hPrinted, hBegins⟩
  | applied hOp hNames =>
      rcases hNames.exists_printed ValuePhrase.printed with
        ⟨token, others, hPrinted, hBegins⟩
      refine ⟨_, .applied hOp hPrinted, ?_⟩
      have hNone := shape?_of_applied hOp
      have hAll := hBegins []
      rw [List.append_nil] at hAll
      simpa [Definition.argumentText, hNone, String.toList_intercalate,
        Function.comp_def] using hAll

namespace Definition

/- What is on some line is on the line that is printed for it. -/
theorem OnLine.line_onLine
    {d : Definition}
    (hLine : d.OnLine cs) :
    d.OnLine d.line.toList := by
  rcases hLine with ⟨_, _, ⟨_, _, hValue, hArguments, -⟩, -, -⟩
  rcases hValue.printed with ⟨token, others, hValue', hFront⟩
  rcases hArguments.printed with ⟨arguments, hArguments', hBack⟩
  rcases hArguments'.exists_cons with ⟨c, later, -, rfl⟩
  refine ⟨_, [], ⟨_, _, hValue', hArguments', rfl⟩, ?_, rfl⟩
  have hSpaced := hBack.blanks_append (show IsBlanks [' '] by decide)
  have hWord :=
    (beginsWith_space_append d.op.name.toList _).append hSpaced
  have hMark := (beginsWith_space_append ['='] _).append hWord
  simpa [line] using (hFront _).append hMark

/- A line with a definition is not blank. -/
theorem OnLine.not_isBlanks
    {d : Definition}
    (hLine : d.OnLine cs) :
    ¬ IsBlanks cs := by
  rcases hLine with ⟨_, rest, ⟨_, _, ⟨-, rfl⟩, -, rfl⟩, hBegins, -⟩
  rcases BeginsWith.cons_iff.mp hBegins with ⟨middle, hMark, -⟩
  intro hBlanks
  have hSkip := hMark.skipBlanks_eq (by decide)
  rw [List.isEmpty_iff.mp (isEmpty_skipBlanks_iff.mpr hBlanks)] at hSkip
  cases hSkip

end Definition

------------------------------------------------------------
-- Characters of a Line
------------------------------------------------------------

/- Characters that are printed in the line of a node. -/
def IsPrinted (cs : List Char) : Prop :=
  ∀ c ∈ cs, isNameChar c = true ∨ c ∈ ['%', ' ', '=', '[', ',', ']']

-- As for words, the search for an instance must not go through all
-- characters.
instance (cs : List Char) : Decidable (IsPrinted cs) :=
  List.decidableBAll _ cs

theorem isPrinted_append
    {cs ds : List Char} :
    IsPrinted (cs ++ ds) ↔ IsPrinted cs ∧ IsPrinted ds :=
  List.forall_mem_append

theorem isPrinted_of_isValueName
    {name : String}
    (hName : IsValueName name) :
    IsPrinted name.toList :=
  fun c hMem => .inl (List.all_eq_true.mp hName.2 c hMem)

theorem isPrinted_toString (n : Nat) :
    IsPrinted (toString n).toList := by
  intro c hMem
  rw [Nat.toString_eq_ofList_toDigits, String.toList_ofList] at hMem
  exact .inl (isNameChar_of_isDigit
    (Nat.isDigit_of_mem_toDigits (by decide) (by decide) hMem))

theorem isPrinted_intercalate
    {ws : List (List Char)}
    (hWords : ∀ w ∈ ws, IsPrinted w) :
    IsPrinted ([',', ' '].intercalate ws) := by
  induction ws with
  | nil => exact fun c hMem => absurd hMem (by simp)
  | cons w ws ih =>
      rcases List.forall_mem_cons.mp hWords with ⟨hFirst, hRest⟩
      cases ws with
      | nil =>
          rw [List.intercalate_singleton]
          exact hFirst
      | cons =>
          rw [List.intercalate_cons_cons, isPrinted_append, isPrinted_append]
          exact ⟨⟨hFirst, by decide⟩, ih hRest⟩

/- Printed characters are on one line. -/
theorem IsPrinted.isLine
    (hPrinted : IsPrinted cs) :
    IsLine cs := by
  constructor
  · intro hMem
    exact absurd (hPrinted '\n' hMem) (by decide)
  · intro hMem
    exact absurd (hPrinted '\r' hMem) (by decide)

/- There is no comment among printed characters. -/
theorem IsPrinted.withoutComment_eq
    (hPrinted : IsPrinted cs) :
    withoutComment cs = cs := by
  unfold withoutComment
  rw [List.takeWhile_eq_self_iff]
  intro c hMem
  apply decide_eq_true
  rintro rfl
  exact absurd (hPrinted ';' hMem) (by decide)

/- Every item of a list has tokens of its own. -/
theorem Listed.exists_of_mem
    {α : Type}
    {Item : α → List (List Char) → Prop}
    {as : List α}
    {a : α}
    (hList : Listed Item as tokens)
    (hMem : a ∈ as) :
    ∃ tokens', Item a tokens' := by
  induction hList with
  | last hItem =>
      rcases List.mem_singleton.mp hMem with rfl
      exact ⟨_, hItem⟩
  | more hItem hRest ih =>
      rcases List.mem_cons.mp hMem with rfl | hLater
      · exact ⟨_, hItem⟩
      · exact ih hLater

theorem isPrinted_shapeText (shape : List Nat) :
    IsPrinted (shapeText shape).toList := by
  unfold shapeText
  rw [String.toList_append, String.toList_append, isPrinted_append,
    isPrinted_append, String.toList_intercalate]
  refine ⟨⟨by decide, isPrinted_intercalate ?_⟩,
    by decide⟩
  simp only [List.forall_mem_map]
  exact fun n _ => isPrinted_toString n

theorem ArgumentPhrase.isPrinted
    {d : Definition}
    (hPhrase : ArgumentPhrase d.op d.operands tokens) :
    IsPrinted d.argumentText.toList := by
  unfold Definition.argumentText
  split
  case h_1 shape _ => exact isPrinted_shapeText shape
  case h_2 hNone =>
    rw [String.toList_intercalate]
    apply isPrinted_intercalate
    simp only [List.forall_mem_map, String.toList_append, isPrinted_append]
    intro name hMem
    refine ⟨by decide, ?_⟩
    rcases d with ⟨dName, op, operands⟩
    cases hPhrase with
    | input => cases hMem
    | constant => cases hMem
    | applied hOp hNames =>
        rcases hNames.exists_of_mem hMem with ⟨_, hName, -⟩
        exact isPrinted_of_isValueName hName

/- The line of a definition has printed characters only. -/
theorem Definition.OnLine.isPrinted_line
    {d : Definition}
    (hLine : d.OnLine cs) :
    IsPrinted d.line.toList := by
  rcases hLine with ⟨_, _, ⟨_, _, hValue, hArguments, -⟩, -, -⟩
  unfold line
  simp only [String.toList_append, isPrinted_append]
  exact ⟨⟨⟨⟨⟨by decide,
    isPrinted_of_isValueName hValue.1⟩, by decide⟩,
    isPrinted_of_isValueName (isValueName_name d.op)⟩,
    by decide⟩, hArguments.isPrinted⟩

------------------------------------------------------------
-- Texts of Graphs
------------------------------------------------------------

namespace Graph

variable {defs : List Definition} {d : Definition}

/- Operands are printed by the names that they were resolved from. -/
theorem map_nameAt
    {names : List String}
    (hKnown : ∀ name ∈ names, name ∈ defs.map Definition.name) :
    (names.filterMap (Definition.place? defs)).map
        (fun i => "%" ++ (ofDefinitions defs).nameAt i) =
      names.map (fun name => "%" ++ name) := by
  induction names with
  | nil => rfl
  | cons name names ih =>
      rcases List.forall_mem_cons.mp hKnown with ⟨hFirst, hRest⟩
      rcases Option.isSome_iff_exists.mp
        (Definition.place?_isSome_iff.mpr hFirst) with ⟨i, hPlace⟩
      rcases Definition.of_place?_eq_some hPlace with ⟨d, hGet, hName⟩
      have hNameAt : (ofDefinitions defs).nameAt i = name := by
        simp [nameAt, ofDefinitions, hGet, Definition.node, hName]
      rw [List.filterMap_cons_some hPlace, List.map_cons, List.map_cons,
        hNameAt, ih hRest]

theorem argumentText_node
    (hPhrase : ArgumentPhrase d.op d.operands tokens)
    (hKnown : ∀ name ∈ d.operands, name ∈ defs.map Definition.name) :
    (ofDefinitions defs).argumentText (Definition.node defs d) =
      " " ++ d.argumentText := by
  rcases d with ⟨name, op, operands⟩
  cases hPhrase with
  | input => rfl
  | constant => rfl
  | applied hOp hNames =>
      have hNone := shape?_of_applied hOp
      have hNonempty : operands.filterMap (Definition.place? defs) ≠ [] := by
        intro hEmpty
        have hMap := map_nameAt hKnown
        rw [hEmpty] at hMap
        cases hNames <;> cases hMap
      unfold argumentText Definition.argumentText Definition.node
      dsimp only
      rw [hNone, ← map_nameAt hKnown]
      dsimp only
      split
      case h_1 hEmpty => exact absurd hEmpty hNonempty
      case h_2 => rfl

/- A node is printed as its definition. -/
theorem nodeText_node
    (hLine : d.OnLine cs)
    (hKnown : ∀ name ∈ d.operands, name ∈ defs.map Definition.name) :
    (ofDefinitions defs).nodeText (Definition.node defs d) = d.line := by
  rcases hLine with ⟨_, _, ⟨_, _, -, hPhrase, -⟩, -, -⟩
  rw [nodeText, argumentText_node hPhrase hKnown, Definition.line,
    ← String.append_assoc]
  rfl

/- The lines of a graph are those of its definitions. -/
theorem contentLines_text
    (hLines : ∀ d ∈ defs, ∃ cs, d.OnLine cs)
    (hDefs : Definition.Consistent defs) :
    contentLines (ofDefinitions defs).text =
      defs.map (fun d => d.line.toList) := by
  have hText : (ofDefinitions defs).text = unlines (defs.map (·.line)) := by
    unfold text unlines
    rw [ofDefinitions, List.map_map, List.map_map]
    congr 1
    apply List.map_congr_left
    intro d hMem
    rcases hLines d hMem with ⟨cs, hLine⟩
    exact congrArg (· ++ "\n") (nodeText_node hLine (hDefs.known d hMem))
  have hPrinted : ∀ d ∈ defs, IsPrinted d.line.toList := by
    intro d hMem
    rcases hLines d hMem with ⟨cs, hLine⟩
    exact hLine.isPrinted_line
  rw [contentLines, hText, lines_unlines, List.map_map, List.map_map]
  · have hSame :
        defs.map ((withoutComment ∘ String.toList) ∘ (·.line)) =
          defs.map (fun d => d.line.toList) :=
      List.map_congr_left
        (fun d hMem => (hPrinted d hMem).withoutComment_eq)
    rw [hSame, List.filter_eq_self, List.forall_mem_map]
    intro d hMem
    rcases hLines d hMem with ⟨cs, hLine⟩
    exact decide_eq_true hLine.line_onLine.not_isBlanks
  · rw [List.forall_mem_map]
    exact fun d hMem => (hPrinted d hMem).isLine

/- Each definition that a text spells is on one of its lines. -/
theorem Spells.exists_onLine
    {text : String}
    (hSpells : Spells text defs)
    (hMem : d ∈ defs) :
    ∃ cs, d.OnLine cs := by
  rcases List.mem_iff_get.mp hMem with ⟨i, rfl⟩
  exact ⟨_, hSpells.lines.get i.2 (hSpells.lines.length_eq ▸ i.2)⟩

/- The graph of the definitions of a text spells them, too. -/
theorem spells_text
    {text : String}
    (hSpells : Spells text defs) :
    Spells (ofDefinitions defs).text defs := by
  have hLines : ∀ d ∈ defs, ∃ cs, d.OnLine cs :=
    fun d hMem => hSpells.exists_onLine hMem
  refine ⟨?_, hSpells.consistent⟩
  rw [contentLines_text hLines hSpells.consistent,
    List.forall₂_map_right_iff, List.forall₂_same]
  intro d hMem
  rcases hLines d hMem with ⟨cs, hLine⟩
  exact hLine.line_onLine

/-
  The text of a graph that was read is read as that graph, with
  the same places of names, which are those of the nodes.
-/
theorem parse_text_of_parse
    {text : String}
    {g : Graph}
    (hParse : Graph.parse text = .ok g) :
    Graph.parse g.text = .ok g ∧
      ∃ draft,
        Draft.parse text = .ok draft ∧ Draft.parse g.text = .ok draft ∧
        draft.graph = g ∧
        ∀ name i,
          (draft.place? name = some i ↔
            ∃ n, g.nodes[i]? = some n ∧ n.name = name) ∧
          draft.place? name = g.lookup? name := by
  rcases parse_eq_ok_iff_spells.mp hParse with ⟨defs, hSpells, rfl⟩
  have hText := spells_text hSpells
  refine ⟨parse_eq_ok_iff_spells.mpr ⟨defs, hText, rfl⟩,
    .ofDefinitions defs, draft_parse_eq_ok_iff_spells.mpr ⟨defs, hSpells, rfl⟩,
    draft_parse_eq_ok_iff_spells.mpr ⟨defs, hText, rfl⟩, rfl, ?_⟩
  have hNodup := hSpells.consistent.nodup
  intro name i
  refine ⟨?_, Draft.place?_ofDefinitions hNodup name⟩
  have hPlace :
      (Draft.ofDefinitions defs).place? name = Definition.place? defs name :=
    Draft.place?_declareAll hNodup name
  rw [hPlace, hSpells.consistent.place?_eq_some_iff]
  simp [ofDefinitions, Definition.node]

/- Two nodes are operands of each other, and a dimension is the largest. -/
def knot : Graph :=
  { nodes :=
      [ { name := "a", op := .add, operands := [1, 1] },
        { name := "b", op := .relu, operands := [0] },
        { name := "c", op := .input [7, Count.largest], operands := [] } ] }

/- A text of that graph, with blanks, a comment and zeros to spare. -/
def knotText : String :=
  "%a=add%b ,%b; both are below\r\n\t\n" ++
    " %b = relu % a\n%c = input [ 007,18446744073709551615 ]"

theorem parse_text_of_parse_knot :
    Graph.parse knotText = .ok knot ∧
      knot.text =
        "%a = add %b, %b\n%b = relu %a\n" ++
          "%c = input [7, 18446744073709551615]\n" ∧
      Graph.parse knot.text = .ok knot ∧
      ∃ draft,
        Draft.parse knot.text = .ok draft ∧ draft.graph = knot ∧
          draft.place? "b" = some 1 := by
  have hParse : Graph.parse knotText = .ok knot := by decide +kernel
  rcases parse_text_of_parse hParse with
    ⟨hText, draft, -, hDraft, hGraph, hPlaces⟩
  refine ⟨hParse, by decide +kernel, hText, draft, hDraft, hGraph, ?_⟩
  exact (hPlaces "b" 1).1.mpr ⟨_, rfl, rfl⟩

end Graph

end Systolic
