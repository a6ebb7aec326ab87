import Mathlib.Data.List.Nodup
import Systolic.Graph.Network
import Systolic.Graph.Parser

/-
  This file proves what a text must be to be read as a graph, and
  which graph it is. Every line that is not blank reads on its own
  as a definition, the names are different, and operands have a
  definition on some line. The graph has a node for each of the
  definitions, in their order.

  Key definitions include:
    * `lineDefinitions`
    * `Definition.Consistent`
    * `Graph.ofDefinitions`

  Key theorems include:
    * `readDefinition_eq_ok_iff`
    * `Graph.parse_eq_ok_iff`
    * `Graph.isValueName_of_parse`
    * `Graph.wellFormed_ofDefinitions`
-/

namespace Systolic

variable {cs rest : List Char} {d : Definition}
variable {entries above : List Entry}

------------------------------------------------------------
-- Names
------------------------------------------------------------

/- A name starts with a character that it may hold. -/
theorem isNameChar_of_isNameStart
    {c : Char}
    (hStart : isNameStart c = true) :
    isNameChar c = true := by
  unfold isNameStart at hStart
  unfold isNameChar Char.isAlphanum
  rcases Bool.or_eq_true_iff.mp hStart with hAlpha | hUnderscore
  · simp [hAlpha]
  · simp [hUnderscore]

/- What is read as a name is one. -/
theorem isValueName_of_readName
    {name : String}
    (hRead : readName cs = .ok (name, rest)) :
    IsValueName name := by
  unfold readName at hRead
  dsimp only at hRead
  split at hRead
  case isFalse => cases hRead
  case isTrue hStart =>
    cases hRead
    unfold IsValueName
    rw [String.toList_ofList]
    refine ⟨?_, List.all_takeWhile⟩
    cases hBlanks : skipBlanks cs with
    | nil =>
        rw [hBlanks] at hStart
        cases hStart
    | cons c tail =>
        rw [hBlanks] at hStart
        have hFirst : isNameStart c = true := by simpa using hStart
        simp [isNameChar_of_isNameStart hFirst, hFirst]

theorem isValueName_of_readValue
    {name : String}
    (hRead : readValue cs = .ok (name, rest)) :
    IsValueName name := by
  unfold readValue at hRead
  split at hRead
  case h_1 => cases hRead
  case h_2 => exact isValueName_of_readName hRead

------------------------------------------------------------
-- Definitions
------------------------------------------------------------

theorem name_of_readInto
    {α : Type}
    {name : String}
    {read : Reader α}
    {build : α → Definition}
    (hBuild : ∀ a, (build a).name = name)
    (hRead : readInto read build cs = .ok (d, rest)) :
    d.name = name := by
  unfold readInto at hRead
  split at hRead
  · cases hRead
  · cases hRead
    exact hBuild _

theorem name_of_readArguments
    {name operation : String}
    (hRead : readArguments name operation cs = .ok (d, rest)) :
    d.name = name := by
  unfold readArguments at hRead
  split at hRead
  · exact name_of_readInto (fun _ => rfl) hRead
  split at hRead
  · exact name_of_readInto (fun _ => rfl) hRead
  split at hRead
  · exact name_of_readInto (fun _ => rfl) hRead
  split at hRead
  · exact name_of_readInto (fun _ => rfl) hRead
  split at hRead
  · exact name_of_readInto (fun _ => rfl) hRead
  · cases hRead

/- A definition has the name that it was read after. -/
theorem name_of_readBody
    {name : String}
    (hRead : readBody name cs = .ok d) :
    d.name = name := by
  unfold readBody at hRead
  split at hRead
  · cases hRead
  split at hRead
  · cases hRead
  split at hRead
  · cases hRead
  case h_2 hArguments =>
    split at hRead
    · cases hRead
      exact name_of_readArguments hArguments
    · cases hRead

/- The name of an entry. -/
def Entry.name (e : Entry) : String :=
  e.definition.name

/- A definition is read if its name is not above it. -/
theorem readDefinition_eq_ok_iff
    {d : Definition} :
    readDefinition above cs = .ok d ↔
      readDefinition [] cs = .ok d ∧ d.name ∉ above.map Entry.name := by
  unfold readDefinition
  cases readValue cs with
  | error e => simp
  | ok result =>
      rcases result with ⟨name, rest⟩
      simp only [List.find?_nil]
      cases hFind : above.find? (fun e => e.definition.name = name) with
      | some e =>
          have hMem := List.mem_of_find?_eq_some hFind
          have hName : e.definition.name = name := by
            simpa using List.find?_some hFind
          constructor
          · intro hRead
            cases hRead
          · rintro ⟨hRead, hNew⟩
            rw [name_of_readBody hRead] at hNew
            exact absurd (List.mem_map.mpr ⟨e, hMem, hName⟩) hNew
      | none =>
          refine ⟨fun hRead => ⟨hRead, ?_⟩, And.left⟩
          rw [name_of_readBody hRead]
          intro hMem
          rcases List.mem_map.mp hMem with ⟨e, hE, hName⟩
          exact List.find?_eq_none.mp hFind e hE (decide_eq_true hName)

theorem isValueName_of_readDefinition
    (hRead : readDefinition above cs = .ok d) :
    IsValueName d.name := by
  unfold readDefinition at hRead
  split at hRead
  case h_1 => cases hRead
  case h_2 hValue =>
    split at hRead
    case h_1 => cases hRead
    case h_2 =>
      rw [name_of_readBody hRead]
      exact isValueName_of_readValue hValue

------------------------------------------------------------
-- Lines
------------------------------------------------------------

/- A line defines nothing or reads on its own as a definition. -/
def IsReadable (cs : List Char) : Prop :=
  (skipBlanks (withoutComment cs)).isEmpty = true ∨
    ∃ d, readDefinition [] (withoutComment cs) = .ok d

/- What a line defines. -/
def lineDefinitions (cs : List Char) : List Definition :=
  if (skipBlanks (withoutComment cs)).isEmpty then []
  else (readDefinition [] (withoutComment cs)).toOption.toList

theorem isValueName_of_mem_lineDefinitions
    (hMem : d ∈ lineDefinitions cs) :
    IsValueName d.name := by
  unfold lineDefinitions at hMem
  split at hMem
  · cases hMem
  · cases hRead : readDefinition [] (withoutComment cs) with
    | error e =>
        rw [hRead] at hMem
        cases hMem
    | ok k =>
        rw [hRead] at hMem
        rcases List.mem_singleton.mp hMem with rfl
        exact isValueName_of_readDefinition hRead

/-
  Lines that are read are readable, and their names are new. The
  entries are their definitions.
-/
theorem of_readLines_eq_ok
    {line : Nat}
    {ls : List (List Char)}
    (hAbove : (above.map Entry.name).Nodup)
    (hRead : readLines line above ls = .ok entries) :
    (∀ cs ∈ ls, IsReadable cs) ∧
      (entries.map Entry.name).Nodup ∧
      entries.map Entry.definition =
        above.map Entry.definition ++ ls.flatMap lineDefinitions := by
  induction ls generalizing line above with
  | nil =>
      cases hRead
      exact ⟨by simp, hAbove, by simp⟩
  | cons cs ls ih =>
      unfold readLines at hRead
      dsimp only at hRead
      split at hRead
      case isTrue hEmpty =>
        rcases ih hAbove hRead with ⟨hReadable, hNodup, hEntries⟩
        refine ⟨?_, hNodup, ?_⟩
        · exact List.forall_mem_cons.mpr ⟨.inl hEmpty, hReadable⟩
        · rw [hEntries, List.flatMap_cons, lineDefinitions, if_pos hEmpty,
            List.nil_append]
      case isFalse hFull =>
        split at hRead
        case h_1 => cases hRead
        case h_2 d hDefinition =>
          rcases readDefinition_eq_ok_iff.mp hDefinition with
            ⟨hAlone, hNew⟩
          have hAbove' :
              ((above ++ [Entry.mk line d]).map Entry.name).Nodup := by
            rw [List.map_append, List.nodup_append]
            refine ⟨hAbove, List.nodup_singleton _, ?_⟩
            intro name hMem name' hMem' hSame
            rcases List.mem_singleton.mp hMem' with rfl
            rw [hSame] at hMem
            exact hNew hMem
          rcases ih hAbove' hRead with ⟨hReadable, hNodup, hEntries⟩
          refine ⟨?_, hNodup, ?_⟩
          · exact List.forall_mem_cons.mpr ⟨.inr ⟨d, hAlone⟩, hReadable⟩
          · rw [hEntries, List.flatMap_cons, lineDefinitions, if_neg hFull,
              hAlone]
            simp [Except.toOption]

/- Readable lines with new names are read. -/
theorem exists_readLines_eq_ok
    (line : Nat)
    {ls : List (List Char)}
    (hReadable : ∀ cs ∈ ls, IsReadable cs)
    (hNodup :
      (above.map Entry.name ++
        (ls.flatMap lineDefinitions).map Definition.name).Nodup) :
    ∃ entries, readLines line above ls = .ok entries := by
  induction ls generalizing line above with
  | nil => exact ⟨above, rfl⟩
  | cons cs ls ih =>
      rcases List.forall_mem_cons.mp hReadable with ⟨hFirst, hRest⟩
      unfold readLines
      dsimp only
      rw [List.flatMap_cons] at hNodup
      by_cases hEmpty : (skipBlanks (withoutComment cs)).isEmpty = true
      · rw [if_pos hEmpty]
        rw [lineDefinitions, if_pos hEmpty, List.nil_append] at hNodup
        exact ih (line + 1) hRest hNodup
      · rw [if_neg hEmpty]
        rcases hFirst with hFirst | ⟨d, hAlone⟩
        · exact absurd hFirst hEmpty
        rw [lineDefinitions, if_neg hEmpty, hAlone] at hNodup
        have hNames :
            ((above ++ [Entry.mk line d]).map Entry.name ++
              (ls.flatMap lineDefinitions).map Definition.name).Nodup := by
          simpa [Except.toOption, Entry.name] using hNodup
        have hNew : d.name ∉ above.map Entry.name := by
          rw [List.map_append] at hNames
          have hInit := (List.nodup_append.mp hNames).1
          intro hMem
          exact (List.nodup_append.mp hInit).2.2 d.name hMem d.name
            (List.mem_singleton.mpr rfl) rfl
        rw [readDefinition_eq_ok_iff.mpr ⟨hAlone, hNew⟩]
        exact ih (line + 1) hRest hNames

------------------------------------------------------------
-- Operands
------------------------------------------------------------

namespace Definition

variable {defs : List Definition}

/- The place of the definition of a name. -/
def place?
    (defs : List Definition)
    (name : String) : Option Nat :=
  defs.findIdx? (fun d => d.name = name)

/- Names are different, and operands are defined. -/
structure Consistent (defs : List Definition) : Prop where
  nodup : (defs.map Definition.name).Nodup
  known :
    ∀ d ∈ defs, ∀ name ∈ d.operands, name ∈ defs.map Definition.name

/- The node of a definition among others. -/
def node
    (defs : List Definition)
    (d : Definition) : Node :=
  { name := d.name, op := d.op
    operands := d.operands.filterMap (place? defs) }

theorem place?_isSome_iff
    {name : String} :
    (place? defs name).isSome ↔ name ∈ defs.map Definition.name := by
  unfold place?
  rw [List.findIdx?_isSome, List.any_eq_true, List.mem_map]
  simp only [decide_eq_true_eq]

/- A place holds the definition of its name. -/
theorem of_place?_eq_some
    {name : String}
    {i : Nat}
    (hPlace : place? defs name = some i) :
    ∃ d, defs[i]? = some d ∧ d.name = name := by
  unfold place? at hPlace
  rcases List.findIdx?_eq_some_iff_getElem.mp hPlace with
    ⟨hBound, hName, -⟩
  exact ⟨defs[i], List.getElem?_eq_getElem hBound, of_decide_eq_true hName⟩

/- Different names have one place each. -/
theorem Consistent.place?_eq_some
    {i : Nat}
    (hDefs : Consistent defs)
    (hGet : defs[i]? = some d) :
    place? defs d.name = some i := by
  have hMem : d.name ∈ defs.map Definition.name :=
    List.mem_map_of_mem (List.mem_of_getElem? hGet)
  rcases Option.isSome_iff_exists.mp (place?_isSome_iff.mpr hMem) with
    ⟨j, hPlace⟩
  rcases of_place?_eq_some hPlace with ⟨e, hOther, hName⟩
  have hNames :
      (defs.map Definition.name)[j]? = (defs.map Definition.name)[i]? := by
    rw [List.getElem?_map, List.getElem?_map, hOther, hGet, Option.map_some,
      Option.map_some, hName]
  have hBound : j < (defs.map Definition.name).length := by
    rw [List.length_map]
    exact (List.getElem?_eq_some_iff.mp hOther).1
  rw [hPlace, (List.getElem?_inj hBound hDefs.nodup).mp hNames]

end Definition

------------------------------------------------------------
-- Drafts
------------------------------------------------------------

namespace Draft

variable {d : Draft} {defs : List Definition}

theorem place?_grow
    (n : Node)
    (name : String) :
    (d.grow n).place? name =
      if name = n.name then some d.graph.nodes.length
      else d.place? name := by
  unfold place? grow
  rw [List.lookup_cons]
  by_cases hName : name = n.name
  · simp [hName]
  · simp [hName, beq_eq_false_iff_ne.mpr hName]

theorem getElem?_grow
    (n : Node)
    (i : Nat) :
    (d.grow n).graph.nodes[i]? =
      if i = d.graph.nodes.length then some n
      else d.graph.nodes[i]? := by
  unfold grow
  split
  case isTrue hLast =>
    rw [hLast]
    exact List.getElem?_concat_length
  case isFalse hOther =>
    rw [List.getElem?_append]
    split
    case isTrue => rfl
    case isFalse hOutside =>
      rw [List.getElem?_eq_none (by simp; omega),
        List.getElem?_eq_none (by omega)]

/- The places of names are those of the nodes that have them. -/
def Indexes (d : Draft) : Prop :=
  ∀ name i,
    d.place? name = some i ↔
      ∃ n, d.graph.nodes[i]? = some n ∧ n.name = name

theorem indexes_empty : empty.Indexes := by
  simp [Indexes, empty, Graph.empty, place?]

/- A node with a new name is found where it was put. -/
theorem Indexes.grow
    {n : Node}
    (hIndexes : d.Indexes)
    (hNew : d.place? n.name = none) :
    (d.grow n).Indexes := by
  intro name i
  rw [place?_grow, getElem?_grow]
  by_cases hName : name = n.name
  · -- No older node has the name of the new one.
    rw [if_pos hName, Option.some.injEq]
    constructor
    · rintro rfl
      exact ⟨n, if_pos rfl, hName.symm⟩
    · rintro ⟨m, hGet, hSame⟩
      split at hGet
      case isTrue hLast => exact hLast.symm
      case isFalse =>
        have hPlace := (hIndexes name i).mpr ⟨m, hGet, hSame⟩
        rw [hName, hNew] at hPlace
        cases hPlace
  · rw [if_neg hName, hIndexes]
    constructor
    · rintro ⟨m, hGet, hSame⟩
      have hInside := (List.getElem?_eq_some_iff.mp hGet).1
      exact ⟨m, by rw [if_neg (Nat.ne_of_lt hInside), hGet], hSame⟩
    · rintro ⟨m, hGet, hSame⟩
      split at hGet
      case isTrue =>
        cases hGet
        exact absurd hSame.symm hName
      case isFalse => exact ⟨m, hGet, hSame⟩

/- The kept places are those at which the graph has its names. -/
theorem Indexes.lookup?_eq
    (hIndexes : d.Indexes)
    (name : String) :
    d.graph.lookup? name = d.place? name := by
  unfold Graph.lookup?
  cases hPlace : d.place? name with
  | none =>
      rw [List.findIdx?_eq_none_iff]
      intro n hMem
      rcases List.mem_iff_getElem?.mp hMem with ⟨i, hGet⟩
      apply decide_eq_false
      intro hName
      rw [(hIndexes name i).mpr ⟨n, hGet, hName⟩] at hPlace
      cases hPlace
  | some i =>
      rcases (hIndexes name i).mp hPlace with ⟨n, hGet, hName⟩
      rcases List.getElem?_eq_some_iff.mp hGet with ⟨hInside, rfl⟩
      rw [List.findIdx?_eq_some_iff_getElem]
      refine ⟨hInside, decide_eq_true hName, ?_⟩
      intro j hBefore hSame
      have hOther := (hIndexes name j).mpr
        ⟨d.graph.nodes[j], List.getElem?_eq_getElem _,
          of_decide_eq_true hSame⟩
      rw [hPlace] at hOther
      cases hOther
      exact Nat.lt_irrefl _ hBefore

/- A name is found if it was there before or is declared. -/
theorem isSome_place?_declareAll
    {name : String} :
    ((d.declareAll defs).place? name).isSome ↔
      (d.place? name).isSome ∨ name ∈ defs.map Definition.name := by
  unfold declareAll
  induction defs generalizing d with
  | nil => simp
  | cons c defs ih =>
      rw [List.foldl_cons, ih, place?_grow, List.map_cons, List.mem_cons,
        ← or_assoc]
      by_cases hName : name = c.name
      · simp [hName]
      · simp [hName]

/- Definitions with different new names are found where they were put. -/
theorem Indexes.declareAll
    (hIndexes : d.Indexes)
    (hNodup : (defs.map Definition.name).Nodup)
    (hNew : ∀ c ∈ defs, d.place? c.name = none) :
    (d.declareAll defs).Indexes ∧
      (d.declareAll defs).graph.nodes.map Node.name =
        d.graph.nodes.map Node.name ++ defs.map Definition.name := by
  unfold Draft.declareAll
  induction defs generalizing d with
  | nil => exact ⟨hIndexes, (List.append_nil _).symm⟩
  | cons c defs ih =>
      rcases List.forall_mem_cons.mp hNew with ⟨hFirst, hRest⟩
      rcases List.nodup_cons.mp hNodup with ⟨hOther, hNodup⟩
      have hLater :
          ∀ c' ∈ defs,
            (d.grow { name := c.name, op := c.op, operands := [] }).place?
              c'.name = none := by
        intro c' hMem
        have hNe : c'.name ≠ c.name :=
          fun hSame => hOther (hSame ▸ List.mem_map_of_mem hMem)
        rw [place?_grow, if_neg hNe]
        exact hRest c' hMem
      rcases ih (hIndexes.grow hFirst) hNodup hLater with ⟨hAll, hNames⟩
      refine ⟨hAll, ?_⟩
      rw [List.foldl_cons, hNames, Draft.grow, List.map_append]
      simp

/- Different names are found at the places of their definitions. -/
theorem place?_declareAll
    (hNodup : (defs.map Definition.name).Nodup)
    (name : String) :
    (empty.declareAll defs).place? name = Definition.place? defs name := by
  rcases indexes_empty.declareAll hNodup (fun _ _ => rfl) with
    ⟨hIndexes, hNames⟩
  have hFound :
      ∀ {α : Type} (l : List α) (label : α → String),
        l.findIdx? (fun a => label a = name) =
          (l.map label).findIdx? (fun other => other = name) := by
    intro α l label
    rw [List.findIdx?_map]
    rfl
  rw [← hIndexes.lookup?_eq, Graph.lookup?, Definition.place?, hFound,
    hFound defs, hNames]
  rfl

end Draft

------------------------------------------------------------
-- Resolving Operands
------------------------------------------------------------

section Resolving

variable {draft : Draft}

/- Operands are resolved if they are all defined. -/
theorem resolveNames_eq_ok
    (line : Nat)
    {names : List String}
    (hKnown : ∀ name ∈ names, (draft.place? name).isSome) :
    resolveNames draft line names =
      .ok (names.filterMap (draft.place?)) := by
  induction names with
  | nil => rfl
  | cons name names ih =>
      rcases List.forall_mem_cons.mp hKnown with ⟨hFirst, hRest⟩
      rcases Option.isSome_iff_exists.mp hFirst with ⟨i, hPlace⟩
      unfold resolveNames
      rw [ih hRest, List.filterMap_cons_some hPlace, hPlace]

theorem known_of_resolveNames
    {line : Nat}
    {names : List String}
    {is : List Nat}
    (hResolve : resolveNames draft line names = .ok is) :
    ∀ name ∈ names, (draft.place? name).isSome := by
  induction names generalizing is with
  | nil => simp
  | cons name names ih =>
      unfold resolveNames at hResolve
      split at hResolve
      case h_1 => cases hResolve
      case h_2 i hPlace =>
        split at hResolve
        case h_1 => cases hResolve
        case h_2 js hRest =>
          refine List.forall_mem_cons.mpr ⟨?_, ih hRest⟩
          rw [hPlace, Option.isSome_some]

/- Entries become nodes if all their operands are defined. -/
theorem resolveEntries_eq_ok
    {es : List Entry}
    {defs : List Definition}
    (hPlaces : draft.place? = Definition.place? defs)
    (hKnown :
      ∀ e ∈ es, ∀ name ∈ e.definition.operands,
        (draft.place? name).isSome) :
    resolveEntries draft es =
      .ok (es.map (fun e => Definition.node defs e.definition)) := by
  induction es with
  | nil => rfl
  | cons e es ih =>
      rcases List.forall_mem_cons.mp hKnown with ⟨hFirst, hRest⟩
      unfold resolveEntries
      rw [resolveNames_eq_ok e.line hFirst, ih hRest, hPlaces]
      rfl

theorem known_of_resolveEntries
    {es : List Entry}
    {nodes : List Node}
    (hResolve : resolveEntries draft es = .ok nodes) :
    ∀ e ∈ es, ∀ name ∈ e.definition.operands,
      (draft.place? name).isSome := by
  induction es generalizing nodes with
  | nil => simp
  | cons e es ih =>
      unfold resolveEntries at hResolve
      split at hResolve
      case h_1 => cases hResolve
      case h_2 is hNames =>
        split at hResolve
        case h_1 => cases hResolve
        case h_2 rest hRest =>
          exact List.forall_mem_cons.mpr
            ⟨known_of_resolveNames hNames, ih hRest⟩

end Resolving

------------------------------------------------------------
-- Texts
------------------------------------------------------------

namespace Graph

/- The graph with a node for each definition. -/
def ofDefinitions (defs : List Definition) : Graph :=
  { nodes := defs.map (Definition.node defs) }

/- The definitions of a text. -/
def definitions (text : String) : List Definition :=
  (lines text.toList).flatMap lineDefinitions

end Graph

namespace Draft

/- The graph of definitions, with the places at which they are declared. -/
def ofDefinitions (defs : List Definition) : Draft :=
  { empty.declareAll defs with graph := .ofDefinitions defs }

/- Different names are found where the graph has them. -/
theorem place?_ofDefinitions
    {defs : List Definition}
    (hNodup : (defs.map Definition.name).Nodup)
    (name : String) :
    (ofDefinitions defs).place? name =
      (Graph.ofDefinitions defs).lookup? name := by
  refine (place?_declareAll hNodup name).trans ?_
  rw [Graph.lookup?, Graph.ofDefinitions, List.findIdx?_map]
  rfl

/-
  A text is read if its lines are readable and its definitions
  are consistent, as the draft of these definitions.
-/
theorem parse_eq_ok_iff
    {text : String}
    {d : Draft} :
    Draft.parse text = .ok d ↔
      (∀ cs ∈ lines text.toList, IsReadable cs) ∧
        Definition.Consistent (Graph.definitions text) ∧
        d = ofDefinitions (Graph.definitions text) := by
  have hKnown :
      ∀ entries : List Entry,
        entries.map Entry.definition = Graph.definitions text →
          ((∀ c ∈ Graph.definitions text, ∀ name ∈ c.operands,
              name ∈ (Graph.definitions text).map Definition.name) ↔
            ∀ e ∈ entries, ∀ name ∈ e.definition.operands,
              ((empty.declareAll (Graph.definitions text)).place?
                name).isSome) := by
    intro entries hEntries
    simp only [isSome_place?_declareAll]
    rw [← hEntries, List.forall_mem_map]
    simp [place?, empty]
  have hNames :
      ∀ entries : List Entry,
        entries.map Entry.name =
          (entries.map Entry.definition).map Definition.name := by
    intro entries
    rw [List.map_map]
    rfl
  have hNone : (([] : List Entry).map Entry.name).Nodup := List.nodup_nil
  unfold Draft.parse
  constructor
  · intro hParse
    split at hParse
    case h_1 => cases hParse
    case h_2 entries hRead =>
      rcases of_readLines_eq_ok hNone hRead with
        ⟨hReadable, hNodup, hEntries⟩
      rw [List.map_nil, List.nil_append] at hEntries
      change entries.map Entry.definition = Graph.definitions text at hEntries
      rw [hNames, hEntries] at hNodup
      rw [hEntries] at hParse
      dsimp only at hParse
      split at hParse
      case h_1 => cases hParse
      case h_2 nodes hResolve =>
        cases hParse
        have hOperands := known_of_resolveEntries hResolve
        rw [resolveEntries_eq_ok (funext (place?_declareAll hNodup))
          hOperands] at hResolve
        cases hResolve
        refine ⟨hReadable, ⟨hNodup, (hKnown entries hEntries).mpr hOperands⟩,
          ?_⟩
        rw [ofDefinitions, Graph.ofDefinitions, ← hEntries, List.map_map]
        rfl
  · rintro ⟨hReadable, hConsistent, rfl⟩
    have hNodup :
        (([] : List Entry).map Entry.name ++
          ((lines text.toList).flatMap lineDefinitions).map
            Definition.name).Nodup :=
      hConsistent.nodup
    rcases exists_readLines_eq_ok 1 hReadable hNodup with ⟨entries, hRead⟩
    rcases of_readLines_eq_ok hNone hRead with ⟨-, -, hEntries⟩
    rw [List.map_nil, List.nil_append] at hEntries
    change entries.map Entry.definition = Graph.definitions text at hEntries
    have hOperands := (hKnown entries hEntries).mp hConsistent.known
    rw [hRead]
    dsimp only
    rw [hEntries, resolveEntries_eq_ok
      (funext (place?_declareAll hConsistent.nodup)) hOperands]
    dsimp only
    rw [ofDefinitions, Graph.ofDefinitions, ← hEntries, List.map_map]
    rfl

end Draft

namespace Graph

theorem parse_eq_ok_iff
    {text : String}
    {g : Graph} :
    Graph.parse text = .ok g ↔
      (∀ cs ∈ lines text.toList, IsReadable cs) ∧
        Definition.Consistent (definitions text) ∧
        g = ofDefinitions (definitions text) := by
  have hDraft : Graph.parse text = .ok g ↔
      ∃ d, Draft.parse text = .ok d ∧ d.graph = g := by
    unfold Graph.parse
    cases Draft.parse text with
    | error e => simp [Except.map]
    | ok d => simp [Except.map]
  simp only [hDraft, Draft.parse_eq_ok_iff]
  constructor
  · rintro ⟨d, ⟨hReadable, hConsistent, rfl⟩, rfl⟩
    exact ⟨hReadable, hConsistent, rfl⟩
  · rintro ⟨hReadable, hConsistent, rfl⟩
    exact ⟨_, ⟨hReadable, hConsistent, rfl⟩, rfl⟩

/- The nodes of a graph that was read have names of values. -/
theorem isValueName_of_parse
    {text : String}
    {g : Graph}
    {n : Node}
    (hParse : Graph.parse text = .ok g)
    (hMem : n ∈ g.nodes) :
    IsValueName n.name := by
  rcases parse_eq_ok_iff.mp hParse with ⟨-, -, rfl⟩
  rcases List.mem_map.mp hMem with ⟨d, hD, rfl⟩
  rcases List.mem_flatMap.mp hD with ⟨cs, -, hLine⟩
  exact isValueName_of_mem_lineDefinitions hLine

------------------------------------------------------------
-- Networks
------------------------------------------------------------

section Networks

variable (defs : List Definition)

theorem nodes_ofDefinitions :
    (ofDefinitions defs).network.nodes = List.range defs.length := by
  simp [network, ofDefinitions]

theorem find?_ofDefinitions (name : String) :
    (ofDefinitions defs).network.find? name =
      Definition.place? defs name := by
  simp only [network, ofDefinitions, lookup?, Definition.place?,
    List.findIdx?_map]
  rfl

variable {defs} {i : Nat}

theorem name_ofDefinitions
    (hGet : defs[i]? = some d) :
    (ofDefinitions defs).network.name i = d.name := by
  simp [network, ofDefinitions, hGet, Definition.node]

theorem op_ofDefinitions
    (hGet : defs[i]? = some d) :
    (ofDefinitions defs).network.op i = d.op := by
  simp [network, ofDefinitions, hGet, Definition.node]

theorem operands_ofDefinitions
    (hGet : defs[i]? = some d) :
    (ofDefinitions defs).network.operands i =
      d.operands.filterMap (Definition.place? defs) := by
  simp [network, ofDefinitions, hGet, Definition.node]

/- Names and operands lead to definitions. -/
theorem wellFormed_ofDefinitions :
    (ofDefinitions defs).network.WellFormed := by
  have hPlaces :
      ∀ name i, Definition.place? defs name = some i →
        i ∈ (ofDefinitions defs).network.nodes := by
    intro name i hPlace
    rcases Definition.of_place?_eq_some hPlace with ⟨d, hGet, -⟩
    rw [nodes_ofDefinitions, List.mem_range]
    exact (List.getElem?_eq_some_iff.mp hGet).1
  constructor
  case find?_mem =>
    intro name i hFind
    rw [find?_ofDefinitions] at hFind
    exact hPlaces name i hFind
  case operands_mem =>
    intro i hMem j hOperand
    rw [nodes_ofDefinitions, List.mem_range] at hMem
    rw [operands_ofDefinitions (List.getElem?_eq_getElem hMem)] at hOperand
    rcases List.mem_filterMap.mp hOperand with ⟨name, -, hPlace⟩
    exact hPlaces name j hPlace

end Networks

end Graph

end Systolic
