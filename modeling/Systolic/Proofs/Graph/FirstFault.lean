import Mathlib.Data.List.Induction
import Mathlib.Order.Bounds.Basic
import Systolic.Proofs.Graph.Printing
import Systolic.Proofs.Graph.TrailingBlanks

/-
  This file proves at which line the reading of a graph fails.
  The first line that is no definition, or defines a name again,
  is reported before anything else, and nothing after it matters.
  If there is no such line, the first operand without a
  definition is reported.

  Key definitions include:
    * `Definition.At`
    * `Offends`
    * `Dangles`

  Key theorems include:
    * `readLines_append`
    * `readLines_of_offends`
    * `resolveEntries_eq_error`
    * `Graph.parse_reports_first`
-/

namespace Systolic

variable {ls : List (List Char)} {cs : List Char}

------------------------------------------------------------
-- Faults
------------------------------------------------------------

/- A definition stands on a line, before any comment. -/
def Definition.At
    (d : Definition)
    (ls : List (List Char))
    (k : Nat) : Prop :=
  ∃ cs, ls[k]? = some cs ∧ d.OnLine (withoutComment cs)

/-
  A line is neither blank nor a definition, or it defines a name
  that an earlier line defines, too.
-/
inductive Offends
    (ls : List (List Char))
    (k : Nat) : Prop
| malformed {cs : List Char}
    (hLine : ls[k]? = some cs)
    (hFull : ¬ IsBlanks (withoutComment cs))
    (hNone : ∀ d : Definition, ¬ d.OnLine (withoutComment cs))
| redefines {d d' : Definition} {j : Nat}
    (hBefore : j < k)
    (hLine : d.At ls k)
    (hEarlier : d'.At ls j)
    (hName : d'.name = d.name)

/- An operand of the definition on a line is defined on no line. -/
structure Dangles
    (ls : List (List Char))
    (k o : Nat)
    (name : String) : Prop where
  operand : ∃ d : Definition, d.At ls k ∧ d.operands[o]? = some name
  unknown : ∀ (d : Definition) (j : Nat), d.At ls j → d.name ≠ name

section Lines

variable {d : Definition}
variable {j k : Nat}

theorem Definition.OnLine.unique
    {d' : Definition}
    (hLine : d.OnLine cs)
    (hLine' : d'.OnLine cs) :
    d' = d := by
  rw [← readDefinition_eq_ok_iff_onLine] at hLine hLine'
  rw [hLine] at hLine'
  exact (Except.ok.inj hLine').symm

/- A line holds one definition. -/
theorem Definition.At.unique
    {d' : Definition}
    (hAt : d.At ls k)
    (hAt' : d'.At ls k) :
    d' = d := by
  rcases hAt with ⟨cs, hLine, hOn⟩
  rcases hAt' with ⟨cs', hLine', hOn'⟩
  rw [hLine] at hLine'
  cases hLine'
  exact hOn.unique hOn'

theorem Definition.At.lt_length
    (hAt : d.At ls k) :
    k < ls.length := by
  rcases hAt with ⟨cs, hLine, -⟩
  exact (List.getElem?_eq_some_iff.mp hLine).1

theorem Definition.At.append
    (hAt : d.At ls k)
    (more : List (List Char)) :
    d.At (ls ++ more) k := by
  have hInside := hAt.lt_length
  rcases hAt with ⟨cs, hLine, hOn⟩
  exact ⟨cs, by rw [List.getElem?_append_left hInside, hLine], hOn⟩

theorem Offends.lt_length
    (hOffends : Offends ls k) :
    k < ls.length := by
  cases hOffends with
  | malformed hLine _ _ => exact (List.getElem?_eq_some_iff.mp hLine).1
  | redefines _ hLine _ _ => exact hLine.lt_length

/- Lines that follow do not mend a fault. -/
theorem Offends.append
    (hOffends : Offends ls k)
    (more : List (List Char)) :
    Offends (ls ++ more) k := by
  have hInside := hOffends.lt_length
  cases hOffends with
  | malformed hLine hFull hNone =>
      refine .malformed ?_ hFull hNone
      rw [List.getElem?_append_left hInside, hLine]
  | redefines hBefore hLine hEarlier hName =>
      exact .redefines hBefore (hLine.append more) (hEarlier.append more)
        hName

end Lines

------------------------------------------------------------
-- Entries
------------------------------------------------------------

theorem lineDefinitions_eq_singleton
    {d : Definition}
    (hOn : d.OnLine (withoutComment cs)) :
    lineDefinitions cs = [d] := by
  unfold lineDefinitions
  rw [if_neg (fun hEmpty =>
      hOn.not_isBlanks (isEmpty_skipBlanks_iff.mp hEmpty)),
    readDefinition_eq_ok_iff_onLine.mpr hOn]
  rfl

theorem lineDefinitions_eq_nil
    (hNone : ∀ d : Definition, ¬ d.OnLine (withoutComment cs)) :
    lineDefinitions cs = [] := by
  unfold lineDefinitions
  split
  case isTrue => rfl
  case isFalse =>
    cases hRead : readDefinition [] (withoutComment cs) with
    | error fault => rfl
    | ok d =>
        exact absurd (readDefinition_eq_ok_iff_onLine.mp hRead) (hNone d)

theorem mem_lineDefinitions_iff
    {d : Definition} :
    d ∈ lineDefinitions cs ↔ d.OnLine (withoutComment cs) := by
  by_cases hSome : ∃ k : Definition, k.OnLine (withoutComment cs)
  · rcases hSome with ⟨k, hOn⟩
    rw [lineDefinitions_eq_singleton hOn, List.mem_singleton]
    exact ⟨fun hSame => hSame ▸ hOn, fun hOther => hOn.unique hOther⟩
  · have hNone := not_exists.mp hSome
    rw [lineDefinitions_eq_nil hNone]
    exact ⟨fun hMem => absurd hMem List.not_mem_nil,
      fun hOn => absurd hOn (hNone d)⟩

/- The definitions of lines, with the numbers of their lines. -/
def lineEntries (ls : List (List Char)) : List Entry :=
  ls.zipIdx.flatMap
    (fun p => (lineDefinitions p.1).map (Entry.mk (p.2 + 1)))

theorem lineEntries_concat
    (ls : List (List Char))
    (cs : List Char) :
    lineEntries (ls ++ [cs]) =
      lineEntries ls ++
        (lineDefinitions cs).map (Entry.mk (ls.length + 1)) := by
  simp [lineEntries, List.zipIdx_append]

theorem mem_lineEntries_iff
    {e : Entry} :
    e ∈ lineEntries ls ↔ ∃ k, e.line = k + 1 ∧ e.definition.At ls k := by
  unfold lineEntries
  rw [List.mem_flatMap]
  constructor
  · rintro ⟨⟨cs, k⟩, hLine, hMem⟩
    rcases List.mem_map.mp hMem with ⟨d, hDefined, rfl⟩
    rw [List.mem_zipIdx_iff_getElem?] at hLine
    exact ⟨k, rfl, cs, hLine, mem_lineDefinitions_iff.mp hDefined⟩
  · rintro ⟨k, hNumber, cs, hLine, hOn⟩
    refine ⟨(cs, k), List.mem_zipIdx_iff_getElem?.mpr hLine, ?_⟩
    refine List.mem_map.mpr
      ⟨e.definition, mem_lineDefinitions_iff.mpr hOn, ?_⟩
    rw [← hNumber]

/- A name is among the entries if a line defines it. -/
theorem mem_names_iff
    {name : String} :
    name ∈ (lineEntries ls).map Entry.name ↔
      ∃ (d : Definition) (k : Nat), d.At ls k ∧ d.name = name := by
  rw [List.mem_map]
  constructor
  · rintro ⟨e, hMem, hName⟩
    rcases mem_lineEntries_iff.mp hMem with ⟨k, -, hAt⟩
    exact ⟨e.definition, k, hAt, hName⟩
  · rintro ⟨d, k, hAt, hName⟩
    exact ⟨⟨k + 1, d⟩, mem_lineEntries_iff.mpr ⟨k, rfl, hAt⟩, hName⟩

/- Entries are in the order of their lines. -/
theorem pairwise_lineEntries (ls : List (List Char)) :
    (lineEntries ls).Pairwise (fun e e' => e.line < e'.line) := by
  induction ls using List.reverseRecOn with
  | nil => exact .nil
  | append_singleton ls cs ih =>
      rw [lineEntries_concat, List.pairwise_append]
      refine ⟨ih, ?_, ?_⟩
      · by_cases hSome : ∃ d : Definition, d.OnLine (withoutComment cs)
        · rcases hSome with ⟨d, hOn⟩
          rw [lineDefinitions_eq_singleton hOn]
          exact List.pairwise_singleton _ _
        · rw [lineDefinitions_eq_nil (not_exists.mp hSome)]
          exact .nil
      · intro e hMem e' hMem'
        rcases mem_lineEntries_iff.mp hMem with ⟨k, hNumber, hAt⟩
        rcases List.mem_map.mp hMem' with ⟨d, -, rfl⟩
        have hInside := hAt.lt_length
        simp only [hNumber]
        omega

------------------------------------------------------------
-- Reading Lines
------------------------------------------------------------

/- A definition is read after lines that do not define its name. -/
theorem readDefinition_lineEntries_iff
    {d : Definition} :
    readDefinition (lineEntries ls) cs = .ok d ↔
      d.OnLine cs ∧
        ∀ (d' : Definition) (j : Nat), d'.At ls j → d'.name ≠ d.name := by
  rw [readDefinition_eq_ok_iff, readDefinition_eq_ok_iff_onLine,
    mem_names_iff]
  simp only [not_exists, not_and, ne_eq]

/- Lines without a fault are read. -/
theorem readLines_append
    {front : List (List Char)}
    (hClean : ∀ k, ¬ Offends front k)
    (rest : List (List Char)) :
    readLines 1 [] (front ++ rest) =
      readLines (front.length + 1) (lineEntries front) rest := by
  induction front using List.reverseRecOn generalizing rest with
  | nil => rfl
  | append_singleton front cs ih =>
      have hLine : (front ++ [cs])[front.length]? = some cs :=
        List.getElem?_concat_length
      rw [List.append_assoc, List.singleton_append,
        ih (fun k hOffends => hClean k (hOffends.append [cs])),
        lineEntries_concat, List.length_append, List.length_singleton,
        readLines]
      by_cases hBlank : IsBlanks (withoutComment cs)
      · rw [if_pos (isEmpty_skipBlanks_iff.mpr hBlank),
          lineDefinitions_eq_nil (fun d hOn => hOn.not_isBlanks hBlank),
          List.map_nil, List.append_nil]
      · by_cases hSome : ∃ d : Definition, d.OnLine (withoutComment cs)
        · rcases hSome with ⟨d, hOn⟩
          have hNew :
              ∀ (d' : Definition) (j : Nat), d'.At front j →
                d'.name ≠ d.name := by
            intro d' j hAt hName
            exact hClean front.length
              (.redefines hAt.lt_length ⟨cs, hLine, hOn⟩ (hAt.append [cs])
                hName)
          rw [if_neg (fun hEmpty => hBlank (isEmpty_skipBlanks_iff.mp hEmpty)),
            readDefinition_lineEntries_iff.mpr ⟨hOn, hNew⟩,
            lineDefinitions_eq_singleton hOn]
          rfl
        · exact absurd
            (.malformed hLine hBlank (not_exists.mp hSome))
            (hClean front.length)

/-
  The first line with a fault is reported. What the fault is
  depends on no later line.
-/
theorem readLines_eq_error
    {front : List (List Char)}
    (hClean : ∀ k, ¬ Offends front k)
    (hOffends : Offends (front ++ [cs]) front.length) :
    ∃ fault, ∀ rest,
      readLines 1 [] (front ++ cs :: rest) =
        .error (.parse (front.length + 1) fault) := by
  have hLine : (front ++ [cs])[front.length]? = some cs :=
    List.getElem?_concat_length
  have hRefused :
      ∀ d, readDefinition (lineEntries front) (withoutComment cs) ≠ .ok d := by
    intro d hRead
    rcases readDefinition_lineEntries_iff.mp hRead with ⟨hOn, hNew⟩
    cases hOffends with
    | malformed hSame _ hNone =>
        rw [hLine] at hSame
        cases hSame
        exact hNone d hOn
    | @redefines _ d' j hBefore hAt hEarlier hName =>
        rw [hAt.unique ⟨cs, hLine, hOn⟩] at hNew
        rcases hEarlier with ⟨cs', hLine', hOn'⟩
        rw [List.getElem?_append_left hBefore] at hLine'
        exact hNew d' j ⟨cs', hLine', hOn'⟩ hName
  have hFull : ¬ IsBlanks (withoutComment cs) := by
    cases hOffends with
    | malformed hSame hFull _ =>
        rw [hLine] at hSame
        cases hSame
        exact hFull
    | redefines _ hAt _ _ =>
        rcases hAt with ⟨cs', hSame, hOn⟩
        rw [hLine] at hSame
        cases hSame
        exact hOn.not_isBlanks
  cases hRead : readDefinition (lineEntries front) (withoutComment cs) with
  | ok d => exact absurd hRead (hRefused d)
  | error fault =>
      refine ⟨fault, fun rest => ?_⟩
      rw [readLines_append hClean, readLines]
      rw [if_neg (fun hEmpty => hFull (isEmpty_skipBlanks_iff.mp hEmpty)),
        hRead]

------------------------------------------------------------
-- Resolving Operands
------------------------------------------------------------

/- The first operand without a place is reported. -/
theorem resolveNames_eq_error
    {draft : Draft}
    {line : Nat}
    {names : List String}
    {e : GraphError}
    (hResolve : resolveNames draft line names = .error e) :
    ∃ before name after,
      names = before ++ name :: after ∧
        draft.place? name = none ∧
        (∀ known ∈ before, (draft.place? known).isSome) ∧
        e = .parse line (.unknownValue name) := by
  induction names with
  | nil => cases hResolve
  | cons name names ih =>
      unfold resolveNames at hResolve
      split at hResolve
      case h_1 hPlace =>
        cases hResolve
        exact ⟨[], name, names, rfl, hPlace, by simp, rfl⟩
      case h_2 i hPlace =>
        split at hResolve
        case h_2 => cases hResolve
        case h_1 hRest =>
          cases hResolve
          rcases ih hRest with
            ⟨before, missing, after, rfl, hNone, hKnown, hError⟩
          refine ⟨name :: before, missing, after, rfl, hNone, ?_, hError⟩
          exact List.forall_mem_cons.mpr
            ⟨Option.isSome_of_eq_some hPlace, hKnown⟩

theorem resolveEntries_eq_error
    {draft : Draft}
    {es : List Entry}
    {e : GraphError}
    (hResolve : resolveEntries draft es = .error e) :
    ∃ before x after,
      es = before ++ x :: after ∧
        (∀ known ∈ before, ∀ name ∈ known.definition.operands,
          (draft.place? name).isSome) ∧
        resolveNames draft x.line x.definition.operands = .error e := by
  induction es with
  | nil => cases hResolve
  | cons x es ih =>
      unfold resolveEntries at hResolve
      split at hResolve
      case h_1 hNames =>
        cases hResolve
        exact ⟨[], x, es, rfl, by simp, hNames⟩
      case h_2 hNames =>
        split at hResolve
        case h_2 => cases hResolve
        case h_1 hRest =>
          cases hResolve
          rcases ih hRest with ⟨before, y, after, rfl, hKnown, hError⟩
          refine ⟨x :: before, y, after, rfl, ?_, hError⟩
          exact List.forall_mem_cons.mpr
            ⟨known_of_resolveNames hNames, hKnown⟩

/- The draft of the definitions on lines, without their operands. -/
def lineDraft (ls : List (List Char)) : Draft :=
  Draft.empty.declareAll ((lineEntries ls).map (·.definition))

/- The names that are defined on lines have a place. -/
theorem isSome_place?_lineDraft_iff
    {name : String} :
    ((lineDraft ls).place? name).isSome ↔
      ∃ (d : Definition) (k : Nat), d.At ls k ∧ d.name = name := by
  rw [lineDraft, Draft.isSome_place?_declareAll, List.map_map,
    ← mem_names_iff]
  simp only [Draft.place?, Draft.empty, List.lookup_nil, Option.isSome_none,
    Bool.false_eq_true, false_or]
  rfl

/- An operand that is defined on some line does not dangle. -/
theorem Dangles.place?_eq_none
    {k o : Nat}
    {name : String}
    (hDangles : Dangles ls k o name) :
    ¬ ((lineDraft ls).place? name).isSome := by
  intro hPlace
  rcases isSome_place?_lineDraft_iff.mp hPlace with ⟨d, j, hAt, hName⟩
  exact hDangles.unknown d j hAt hName

/- The first operand that dangles is reported. -/
theorem dangles_of_resolveEntries
    {e : GraphError}
    (hResolve :
      resolveEntries (lineDraft ls) (lineEntries ls) = .error e) :
    ∃ k o name,
      e = .parse (k + 1) (.unknownValue name) ∧ Dangles ls k o name ∧
        ∀ k' o' name', Dangles ls k' o' name' →
          k < k' ∨ k = k' ∧ o ≤ o' := by
  rcases resolveEntries_eq_error hResolve with
    ⟨before, x, after, hEntries, hEarlier, hNames⟩
  rcases resolveNames_eq_error hNames with
    ⟨front, name, back, hOperands, hNone, hKnown, hError⟩
  have hMem : x ∈ lineEntries ls := by
    rw [hEntries]
    exact List.mem_append_right before List.mem_cons_self
  rcases mem_lineEntries_iff.mp hMem with ⟨k, hNumber, hAt⟩
  rw [hNumber] at hError
  refine ⟨k, front.length, name, hError, ⟨⟨x.definition, hAt, ?_⟩, ?_⟩, ?_⟩
  · rw [hOperands, List.getElem?_append_right (Nat.le_refl _), Nat.sub_self,
      List.getElem?_cons_zero]
  · intro d j hThere hName
    have hPlace := isSome_place?_lineDraft_iff.mpr ⟨d, j, hThere, hName⟩
    rw [hNone] at hPlace
    cases hPlace
  · intro k' o' name' hDangles
    rcases hDangles.operand with ⟨d, hThere, hOperand⟩
    rcases Nat.lt_trichotomy k k' with hAfter | rfl | hBefore
    · exact .inl hAfter
    · -- The operands on the line itself.
      cases hAt.unique hThere
      refine .inr ⟨rfl, Nat.le_of_not_lt (fun hEarly => ?_)⟩
      rw [hOperands, List.getElem?_append_left hEarly] at hOperand
      exact hDangles.place?_eq_none
        (hKnown name' (List.mem_of_getElem? hOperand))
    · -- The operands on an earlier line.
      have hEntry : ⟨k' + 1, d⟩ ∈ lineEntries ls :=
        mem_lineEntries_iff.mpr ⟨k', rfl, hThere⟩
      have hSorted := pairwise_lineEntries ls
      rw [hEntries] at hEntry hSorted
      have hFront : ⟨k' + 1, d⟩ ∈ before := by
        rcases List.mem_append.mp hEntry with hFront | hBack
        · exact hFront
        · exfalso
          rcases List.mem_cons.mp hBack with hSame | hLater
          · rw [← hSame] at hNumber
            cases hNumber
            exact Nat.lt_irrefl _ hBefore
          · have hOrder :=
              (List.pairwise_cons.mp
                (List.pairwise_append.mp hSorted).2.1).1 _ hLater
            rw [hNumber] at hOrder
            exact Nat.lt_asymm hBefore (Nat.lt_of_succ_lt_succ hOrder)
      exact absurd
        (hEarlier _ hFront name' (List.mem_of_getElem? hOperand))
        hDangles.place?_eq_none

------------------------------------------------------------
-- Texts
------------------------------------------------------------

/- What a fault is does not depend on later lines. -/
theorem Offends.of_append
    {more : List (List Char)}
    {k : Nat}
    (hInside : k < ls.length)
    (hOffends : Offends (ls ++ more) k) :
    Offends ls k := by
  cases hOffends with
  | malformed hLine hFull hNone =>
      rw [List.getElem?_append_left hInside] at hLine
      exact .malformed hLine hFull hNone
  | redefines hBefore hLine hEarlier hName =>
      rcases hLine with ⟨cs, hLine, hOn⟩
      rcases hEarlier with ⟨cs', hLine', hOn'⟩
      rw [List.getElem?_append_left hInside] at hLine
      rw [List.getElem?_append_left (Nat.lt_trans hBefore hInside)] at hLine'
      exact .redefines hBefore ⟨cs, hLine, hOn⟩ ⟨cs', hLine', hOn'⟩ hName

/- The first line with a fault is reported. -/
theorem readLines_of_offends
    (hSome : ∃ k, Offends ls k) :
    ∃ k fault,
      IsLeast {j | Offends ls j} k ∧
        readLines 1 [] ls = .error (.parse (k + 1) fault) := by
  classical
  have hOffends := Nat.find_spec hSome
  have hFirst : ∀ j, j < Nat.find hSome → ¬ Offends ls j :=
    fun j => Nat.find_min hSome
  generalize Nat.find hSome = k at hOffends hFirst
  have hInside := hOffends.lt_length
  have hSplit : ls = ls.take k ++ ls[k] :: ls.drop (k + 1) := by
    rw [List.getElem_cons_drop, List.take_append_drop]
  have hLength : (ls.take k).length = k :=
    List.length_take_of_le (Nat.le_of_lt hInside)
  have hClean : ∀ j, ¬ Offends (ls.take k) j := by
    intro j hEarly
    have hBefore := hEarly.lt_length
    rw [hLength] at hBefore
    apply hFirst j hBefore
    rw [hSplit]
    exact hEarly.append _
  have hLast : Offends (ls.take k ++ [ls[k]]) (ls.take k).length := by
    rw [hSplit, ← List.singleton_append, ← List.append_assoc] at hOffends
    rw [hLength]
    exact hOffends.of_append (by simpa using hInside)
  rcases readLines_eq_error hClean hLast with ⟨fault, hRead⟩
  refine ⟨k, fault, ⟨hOffends, ?_⟩, ?_⟩
  · intro j hOther
    exact Nat.le_of_not_lt (fun hBefore => hFirst j hBefore hOther)
  · rw [hSplit, hRead, hLength]

namespace Graph

theorem parse_of_readLines
    {text : String}
    {e : GraphError}
    (hRead : readLines 1 [] (lines text.toList) = .error e) :
    parse text = .error e := by
  simp only [parse, Draft.parse, hRead, Except.map]

/- If every line is read, only operands without a definition are left. -/
theorem parse_of_not_offends
    {text : String}
    (hClean : ∀ k, ¬ Offends (lines text.toList) k) :
    (∀ e,
      resolveEntries (lineDraft (lines text.toList))
          (lineEntries (lines text.toList)) = .error e →
        parse text = .error e) ∧
    ∀ nodes,
      resolveEntries (lineDraft (lines text.toList))
          (lineEntries (lines text.toList)) = .ok nodes →
        parse text = .ok { nodes } := by
  have hRead := readLines_append hClean []
  rw [List.append_nil, readLines] at hRead
  constructor
  · intro e hResolve
    unfold lineDraft at hResolve
    simp only [parse, Draft.parse, hRead, hResolve, Except.map]
  · intro nodes hResolve
    unfold lineDraft at hResolve
    simp only [parse, Draft.parse, hRead, hResolve, Except.map]

/-
  A text is refused if a line is at fault or an operand dangles.
  The first line at fault is reported, even if an operand above
  it dangles, and further lines do not change the answer. If no
  line is at fault, the line of the first operand that dangles is
  reported, with its name.
-/
theorem parse_reports_first (text : String) :
    let ls := lines text.toList
    ((∃ e, parse text = .error e) ↔
      (∃ k, Offends ls k) ∨ ∃ k o name, Dangles ls k o name) ∧
    ∀ e, parse text = .error e →
      ∃ k fault,
        e = .parse (k + 1) fault ∧ k < ls.length ∧
        ((∃ j, Offends ls j) →
          IsLeast {j | Offends ls j} k ∧
            (∀ text', ls <+: lines text'.toList →
              parse text' = .error e) ∧
            ∀ more, parse (text ++ "\n" ++ more) = .error e) ∧
        ((¬ ∃ j, Offends ls j) →
          ∃ o name,
            fault = .unknownValue name ∧ Dangles ls k o name ∧
              ∀ k' o' name', Dangles ls k' o' name' →
                k < k' ∨ k = k' ∧ o ≤ o') := by
  intro ls
  by_cases hSome : ∃ k, Offends ls k
  · rcases readLines_of_offends hSome with ⟨k, fault, hLeast, hRead⟩
    have hError := parse_of_readLines hRead
    refine ⟨⟨fun _ => .inl hSome, fun _ => ⟨_, hError⟩⟩, ?_⟩
    intro e hFails
    rw [hError] at hFails
    cases hFails
    refine ⟨k, fault, rfl, hLeast.1.lt_length, fun _ => ⟨hLeast, ?_, ?_⟩,
      fun hNone => absurd hSome hNone⟩
    · rintro text' ⟨more, hLines⟩
      apply parse_of_readLines
      rw [← hLines]
      exact readLines_append_of_error hRead more
    · intro more
      apply parse_of_readLines
      rw [String.append_assoc, String.toList_append, String.toList_append]
      exact readLines_append_newline hRead more.toList
  · have hClean := parse_of_not_offends (not_exists.mp hSome)
    cases hResolve : resolveEntries (lineDraft ls) (lineEntries ls) with
    | error e =>
        have hParse := hClean.1 e hResolve
        rcases dangles_of_resolveEntries hResolve with
          ⟨k, o, name, rfl, hDangles, hFirst⟩
        refine ⟨⟨fun _ => .inr ⟨k, o, name, hDangles⟩,
          fun _ => ⟨_, hParse⟩⟩, ?_⟩
        intro e hFails
        rw [hParse] at hFails
        cases hFails
        rcases hDangles.operand with ⟨d, hAt, -⟩
        exact ⟨k, _, rfl, hAt.lt_length, fun hOther => absurd hOther hSome,
          fun _ => ⟨o, name, rfl, hDangles, hFirst⟩⟩
    | ok nodes =>
        have hParse := hClean.2 nodes hResolve
        have hKnown : ∀ k o name, ¬ Dangles ls k o name := by
          intro k o name hDangles
          rcases hDangles.operand with ⟨d, hAt, hOperand⟩
          exact hDangles.place?_eq_none
            (known_of_resolveEntries hResolve ⟨k + 1, d⟩
              (mem_lineEntries_iff.mpr ⟨k, rfl, hAt⟩) name
              (List.mem_of_getElem? hOperand))
        refine ⟨⟨?_, ?_⟩, ?_⟩
        · rintro ⟨e, hFails⟩
          rw [hParse] at hFails
          cases hFails
        · rintro (hOther | ⟨k, o, name, hDangles⟩)
          · exact absurd hOther hSome
          · exact absurd hDangles (hKnown k o name)
        · intro e hFails
          rw [hParse] at hFails
          cases hFails

/- An operand that dangles yields to a name that is defined again. -/
example :
    parse "%a = relu %b\n%c = input [1]\n\n%c = input [2]" =
      .error (.parse 4 (.redefined "c" 2)) := by
  decide +kernel

end Graph

end Systolic
