import Systolic.Proofs.Graph.Parsing
import Systolic.Proofs.Graph.Search

/-
  This file proves what building a graph node by node leads to,
  whichever nodes are asked for and refused. Names are valid and
  different, the places that are kept of them are those of the
  nodes, and operands stand before the nodes that use them. So
  the graph of a draft has no cycle, and its nodes can always be
  ordered.

  Key definitions include:
    * `Draft.tryAll`
    * `Draft.Built`

  Key theorems include:
    * `Draft.addNode_cases`
    * `Draft.Built.grow`
    * `Draft.Built.tryAll`
    * `Draft.Built.not_onCycle`
    * `Draft.tryAll_builds`
-/

namespace Systolic

namespace Draft

variable {d : Draft}

------------------------------------------------------------
-- Additions
------------------------------------------------------------

/- The draft after a node was asked for, be it added or refused. -/
def tryAdd
    (d : Draft)
    (c : Definition) : Draft :=
  match addNode c.name c.op c.operands d with
  | .ok _ d' => d'
  | .error _ d' => d'

/- The draft after nodes were asked for, one after the other. -/
def tryAll
    (d : Draft)
    (cs : List Definition) : Draft :=
  cs.foldl tryAdd d

/- A node can be added: its name is valid and new, its operands known. -/
structure Accepts
    (d : Draft)
    (c : Definition) : Prop where
  named : IsValueName c.name
  new : d.place? c.name = none
  known : ∀ name ∈ c.operands, (d.place? name).isSome

/- Operands resolve to the places of their names, in their order. -/
theorem map_place?_of_resolve_eq_ok
    {names : List String}
    {is : List Nat}
    (hResolve : d.resolve names = .ok is) :
    names.map d.place? = is.map some := by
  induction names generalizing is with
  | nil =>
      cases hResolve
      rfl
  | cons name names ih =>
      unfold resolve at hResolve
      split at hResolve
      case h_1 => cases hResolve
      case h_2 i hPlace =>
        split at hResolve
        case h_1 => cases hResolve
        case h_2 rest hRest =>
          cases hResolve
          rw [List.map_cons, List.map_cons, hPlace, ih hRest]

/- Only a name without a place is missing. -/
theorem place?_of_resolve_eq_error
    {names : List String}
    {missing : String}
    (hResolve : d.resolve names = .error missing) :
    missing ∈ names ∧ d.place? missing = none := by
  induction names with
  | nil => cases hResolve
  | cons name names ih =>
      unfold resolve at hResolve
      split at hResolve
      case h_1 hPlace =>
        cases hResolve
        exact ⟨List.mem_cons_self, hPlace⟩
      case h_2 =>
        split at hResolve
        case h_2 => cases hResolve
        case h_1 hRest =>
          cases hResolve
          rcases ih hRest with ⟨hMem, hPlace⟩
          exact ⟨List.mem_cons_of_mem _ hMem, hPlace⟩

/- What adding a node does to a draft. -/
theorem addNode_apply
    (d : Draft)
    (c : Definition) :
    addNode c.name c.op c.operands d =
      if ¬ IsValueName c.name then
        .error (.malformed c.name .invalidName) d
      else if (d.place? c.name).isSome then
        .error (.malformed c.name .definedTwice) d
      else
        match d.resolve c.operands with
        | .error missing =>
            .error (.malformed c.name (.unknownOperand missing)) d
        | .ok is =>
            .ok d.graph.nodes.length
              (d.grow { name := c.name, op := c.op, operands := is }) := by
  unfold addNode
  change (ite _ _ _ : Building Nat) d = _
  split
  case isTrue => rfl
  case isFalse =>
    split
    case isTrue => rfl
    case isFalse => cases d.resolve c.operands <;> rfl

/-
  A node that can be added is appended and its place is answered.
  Any other is refused, and the draft stays as it is.
-/
theorem addNode_cases
    (d : Draft)
    (c : Definition) :
    (¬ d.Accepts c ∧
      ∃ e, addNode c.name c.op c.operands d = .error e d) ∨
    (d.Accepts c ∧
      ∃ is,
        c.operands.map d.place? = is.map some ∧
        addNode c.name c.op c.operands d =
          .ok d.graph.nodes.length
            (d.grow { name := c.name, op := c.op, operands := is })) := by
  rw [addNode_apply]
  split
  case isTrue hName =>
    exact .inl ⟨fun hAccepts => hName hAccepts.named, _, rfl⟩
  case isFalse hName =>
    split
    case isTrue hOld =>
      refine .inl ⟨fun hAccepts => ?_, _, rfl⟩
      rw [hAccepts.new] at hOld
      cases hOld
    case isFalse hNew =>
      split
      case h_1 missing hResolve =>
        rcases place?_of_resolve_eq_error hResolve with ⟨hMem, hPlace⟩
        refine .inl ⟨fun hAccepts => ?_, _, rfl⟩
        have hKnown := hAccepts.known missing hMem
        rw [hPlace] at hKnown
        cases hKnown
      case h_2 is hResolve =>
        have hAll := map_place?_of_resolve_eq_ok hResolve
        refine .inr ⟨⟨not_not.mp hName, ?_, ?_⟩, is, hAll, rfl⟩
        · exact Option.not_isSome_iff_eq_none.mp hNew
        · intro name hMem
          have hPlace := List.mem_map_of_mem (f := d.place?) hMem
          rw [hAll] at hPlace
          rcases List.mem_map.mp hPlace with ⟨i, -, hPlace⟩
          exact Option.isSome_of_eq_some hPlace.symm

------------------------------------------------------------
-- Built Drafts
------------------------------------------------------------

/-
  Names are valid, the places of names are those of the nodes
  that have them, and operands stand before their nodes.
-/
structure Built (d : Draft) : Prop where
  named : ∀ n ∈ d.graph.nodes, IsValueName n.name
  indexes : d.Indexes
  operands_lt :
    ∀ (i : Nat) (n : Node), d.graph.nodes[i]? = some n →
      ∀ j ∈ n.operands, j < i

theorem built_empty : empty.Built where
  named := by simp [empty, Graph.empty]
  indexes := indexes_empty
  operands_lt := by simp [empty, Graph.empty]

/- A place that is known is one of the nodes. -/
theorem Built.place?_lt
    {name : String}
    {i : Nat}
    (hBuilt : d.Built)
    (hPlace : d.place? name = some i) :
    i < d.graph.nodes.length := by
  rcases (hBuilt.indexes name i).mp hPlace with ⟨n, hGet, -⟩
  exact (List.getElem?_eq_some_iff.mp hGet).1

/- A new node with operands of the draft keeps it built. -/
theorem Built.grow
    {n : Node}
    (hBuilt : d.Built)
    (hName : IsValueName n.name)
    (hNew : d.place? n.name = none)
    (hOperands : ∀ j ∈ n.operands, j < d.graph.nodes.length) :
    (d.grow n).Built := by
  constructor
  case named =>
    intro m hMem
    rcases List.mem_append.mp hMem with hMem | hLast
    · exact hBuilt.named m hMem
    · rcases List.mem_singleton.mp hLast with rfl
      exact hName
  case indexes => exact hBuilt.indexes.grow hNew
  case operands_lt =>
    intro i m hGet j hMem
    rw [getElem?_grow] at hGet
    split at hGet
    case isTrue hLast =>
      cases hGet
      rw [hLast]
      exact hOperands j hMem
    case isFalse => exact hBuilt.operands_lt i m hGet j hMem

/- Asking for a node keeps a draft built, whatever the answer. -/
theorem Built.tryAdd
    (hBuilt : d.Built)
    (c : Definition) :
    (d.tryAdd c).Built := by
  unfold Draft.tryAdd
  rcases addNode_cases d c with ⟨-, e, hAdd⟩ | ⟨hAccepts, is, hPlaces, hAdd⟩
  · rw [hAdd]
    exact hBuilt
  · rw [hAdd]
    refine hBuilt.grow hAccepts.named hAccepts.new ?_
    intro j hMem
    have hPlace := List.mem_map_of_mem (f := some) hMem
    rw [← hPlaces] at hPlace
    rcases List.mem_map.mp hPlace with ⟨name, -, hPlace⟩
    exact hBuilt.place?_lt hPlace

theorem Built.tryAll
    (hBuilt : d.Built)
    (cs : List Definition) :
    (d.tryAll cs).Built := by
  induction cs generalizing d with
  | nil => exact hBuilt
  | cons c cs ih => exact ih (hBuilt.tryAdd c)

/- Asking for a node adds one node at most. -/
theorem length_tryAll_le
    (d : Draft)
    (cs : List Definition) :
    (d.tryAll cs).graph.nodes.length ≤
      d.graph.nodes.length + cs.length := by
  induction cs generalizing d with
  | nil => exact Nat.le_refl _
  | cons c cs ih =>
      have hFirst :
          (d.tryAdd c).graph.nodes.length ≤ d.graph.nodes.length + 1 := by
        unfold Draft.tryAdd
        rcases addNode_cases d c with ⟨-, e, hAdd⟩ | ⟨-, is, -, hAdd⟩
        · rw [hAdd]
          exact Nat.le_succ _
        · rw [hAdd]
          simp [grow]
      have hRest :
          (d.tryAll (c :: cs)).graph.nodes.length ≤
            (d.tryAdd c).graph.nodes.length + cs.length :=
        ih (d.tryAdd c)
      rw [List.length_cons]
      omega

/-
  The numbers of nodes have 32 bits if fewer than 2^32 nodes are
  asked for.
-/
theorem tryAll_numbers_lt
    {cs : List Definition}
    (hCount : cs.length < UInt32.size) :
    let d := empty.tryAll cs
    d.graph.nodes.length < UInt32.size ∧
      (∀ name i, d.place? name = some i → i < UInt32.size) ∧
      ∀ n ∈ d.graph.nodes, ∀ j ∈ n.operands, j < UInt32.size := by
  intro d
  have hBuilt : d.Built := built_empty.tryAll cs
  have hLength : d.graph.nodes.length ≤ 0 + cs.length :=
    length_tryAll_le empty cs
  refine ⟨by omega, ?_, ?_⟩
  · intro name i hPlace
    have hInside := hBuilt.place?_lt hPlace
    omega
  · intro n hMem j hOperand
    rcases List.mem_iff_getElem?.mp hMem with ⟨i, hGet⟩
    have hInside := (List.getElem?_eq_some_iff.mp hGet).1
    have hBefore := hBuilt.operands_lt i n hGet j hOperand
    omega

namespace Built

/- No two nodes have the same name. -/
theorem nodup_names (hBuilt : d.Built) :
    (d.graph.nodes.map (·.name)).Nodup := by
  rw [List.nodup_iff_getElem?_ne_getElem?]
  intro i j hBefore hInside hSame
  rw [List.length_map] at hInside
  rw [List.getElem?_map, List.getElem?_map,
    List.getElem?_eq_getElem hInside,
    List.getElem?_eq_getElem (Nat.lt_trans hBefore hInside)] at hSame
  have hFirst :=
    (hBuilt.indexes (d.graph.nodes[j]).name i).mpr
      ⟨d.graph.nodes[i], List.getElem?_eq_getElem _, Option.some.inj hSame⟩
  have hSecond :=
    (hBuilt.indexes (d.graph.nodes[j]).name j).mpr
      ⟨d.graph.nodes[j], List.getElem?_eq_getElem _, rfl⟩
  rw [hFirst] at hSecond
  cases hSecond
  exact Nat.lt_irrefl _ hBefore

------------------------------------------------------------
-- Computation Order
------------------------------------------------------------

/- The operands of a node in the network of the graph are before it. -/
theorem lt_of_mem_operands
    {i j : Nat}
    (hBuilt : d.Built)
    (hOperand : j ∈ d.graph.network.operands i) :
    j < i := by
  unfold Graph.network at hOperand
  simp only [List.getElem?_toArray] at hOperand
  split at hOperand
  case h_1 n hGet => exact hBuilt.operands_lt i n hGet j hOperand
  case h_2 => cases hOperand

/- A node uses earlier nodes only. -/
theorem lt_of_uses
    {i j : Nat}
    (hBuilt : d.Built)
    (hUses : d.graph.network.Uses i j) :
    j < i := by
  induction hUses with
  | single hOperand => exact hBuilt.lt_of_mem_operands hOperand
  | tail _ hOperand ih =>
      exact Nat.lt_trans (hBuilt.lt_of_mem_operands hOperand) ih

theorem not_onCycle
    (hBuilt : d.Built)
    (i : Nat) :
    ¬ d.graph.network.OnCycle i :=
  fun hCycle => Nat.lt_irrefl i (hBuilt.lt_of_uses hCycle)

theorem wellFormed_network (hBuilt : d.Built) :
    d.graph.network.WellFormed where
  find?_mem := by
    intro name i hFind
    have hPlace : d.place? name = some i :=
      hBuilt.indexes.lookup?_eq name ▸ hFind
    exact List.mem_range.mpr (hBuilt.place?_lt hPlace)
  operands_mem := by
    intro i hNode j hOperand
    exact List.mem_range.mpr
      (Nat.lt_trans (hBuilt.lt_of_mem_operands hOperand)
        (List.mem_range.mp hNode))

/- Only a name without a node keeps the nodes from being ordered. -/
theorem unknownOutput_of_order_eq_error
    {outputs : List String}
    {e : GraphError}
    (hBuilt : d.Built)
    (hError : d.graph.network.order outputs = .error e) :
    ∃ name ∈ outputs, d.place? name = none ∧ e = .unknownOutput name := by
  cases hRoots : d.graph.network.roots outputs with
  | error e' =>
      have hSame : e' = e := by
        unfold Network.order at hError
        rw [hRoots] at hError
        exact Except.error.inj hError
      rcases Network.roots_eq_error_iff.mp hRoots with ⟨name, hName, hFirst⟩
      have hNone := List.find?_some hFirst
      refine ⟨name, List.mem_of_find?_eq_some hFirst, ?_,
        hSame.symm.trans hName⟩
      rw [← hBuilt.indexes.lookup?_eq name]
      exact Option.isNone_iff_eq_none.mp hNone
  | ok roots =>
      rcases Network.cycle_of_order_eq_error hBuilt.wellFormed_network hRoots
          hError with
        ⟨i, -, -, hCycle⟩
      exact absurd hCycle (hBuilt.not_onCycle i)

end Built

/-
  Whatever nodes are asked for, and however many are refused, the
  draft that they lead to has valid and different names, finds
  each node under its name and nothing else, and has the operands
  of a node before it. One more node is appended if its name is
  valid and new and its operands are known, and is otherwise
  refused without a trace. The graph never has a cycle: only an
  output without a node is refused, and else all nodes come after
  their operands.
-/
theorem tryAll_builds
    (cs : List Definition) :
    let d := empty.tryAll cs
    (∀ n ∈ d.graph.nodes, IsValueName n.name) ∧
    (d.graph.nodes.map (·.name)).Nodup ∧
    (∀ name i,
      (d.place? name = some i ↔
        ∃ n, d.graph.nodes[i]? = some n ∧ n.name = name) ∧
      d.graph.lookup? name = d.place? name) ∧
    (∀ (i : Nat) (n : Node), d.graph.nodes[i]? = some n →
      ∀ j ∈ n.operands, j < i) ∧
    (∀ c : Definition,
      (¬ d.Accepts c →
        ∃ e, addNode c.name c.op c.operands d = .error e d) ∧
      (d.Accepts c →
        ∃ n d',
          addNode c.name c.op c.operands d =
            .ok d.graph.nodes.length d' ∧
          d'.graph.nodes = d.graph.nodes ++ [n] ∧
          n.name = c.name ∧ n.op = c.op ∧
          c.operands.map d.place? = n.operands.map some)) ∧
    ∀ outputs,
      (∀ label, d.graph.network.order outputs ≠ .error (.cycle label)) ∧
      ((∀ name ∈ outputs, (d.place? name).isSome) →
        ∃ ns, d.graph.network.order outputs = .ok ns) ∧
      ∀ ns, d.graph.network.order outputs = .ok ns →
        d.graph.network.Ordered ns := by
  intro d
  have hBuilt : d.Built := built_empty.tryAll cs
  refine ⟨hBuilt.named, hBuilt.nodup_names,
    fun name i => ⟨hBuilt.indexes name i, hBuilt.indexes.lookup?_eq name⟩,
    hBuilt.operands_lt, ?_, ?_⟩
  · intro c
    rcases addNode_cases d c with
      ⟨hRefused, e, hAdd⟩ | ⟨hAccepts, is, hPlaces, hAdd⟩
    · exact ⟨fun _ => ⟨e, hAdd⟩, fun hAccepts => absurd hAccepts hRefused⟩
    · refine ⟨fun hRefused => absurd hAccepts hRefused, fun _ => ?_⟩
      exact ⟨_, _, hAdd, rfl, rfl, rfl, hPlaces⟩
  · intro outputs
    refine ⟨?_, ?_, ?_⟩
    · intro label hError
      rcases hBuilt.unknownOutput_of_order_eq_error hError with
        ⟨name, -, -, hOther⟩
      cases hOther
    · intro hKnown
      cases hOrder : d.graph.network.order outputs with
      | ok ns => exact ⟨ns, rfl⟩
      | error e =>
          rcases hBuilt.unknownOutput_of_order_eq_error hOrder with
            ⟨name, hMem, hNone, -⟩
          have hSome := hKnown name hMem
          rw [hNone] at hSome
          cases hSome
    · intro ns hOrder
      rcases Network.order_ordered hOrder with ⟨-, -, hOrdered, -⟩
      exact hOrdered

end Draft

end Systolic
