import Mathlib.Data.List.NodupEquivFin
import Systolic.Proofs.Lowering.Homes

/-
  This file proves what a lowered program keeps to, whatever list
  of nodes it is lowered from: tensors are written once and before
  they are read, each operation finds its tensors in the memories
  it needs, and an accumulator tensor is activated exactly once,
  by its last reader. The nodes in their computation order also
  load each source and store each output exactly once.

  Key definitions include:
    * `Disciplined`
    * `Lowering.Drained`
    * `Lowering.Homed`
    * `Lowering.Transfers`

  Key theorems include:
    * `WellFormed.disciplined`
    * `Lowering.LowersAll.drained`
    * `Lowering.LowersAll.homed`
    * `Lowering.LowersAll.transfers`
    * `lowerNodes_disciplined`
-/

namespace Systolic

variable {ν : Type}

------------------------------------------------------------
-- Disciplined Programs
------------------------------------------------------------

/-
  What a program keeps to. A tensor has one writer, which comes
  before its readers. Tensors with a home are loaded and tensors
  with a place for the host are stored, from and to the local
  memory. Results are computed in the accumulator memory, and
  each of them leaves it once, after all other reads.
-/
structure Disciplined
    (table : TensorTable)
    (ops : List Operation) : Prop where
  written_once :
    ∀ (i j : Nat) (op op' : Operation) (t : TensorId),
      ops[i]? = some op → ops[j]? = some op' →
        op.writes = some t → op'.writes = some t → i = j
  written_before :
    ∀ (j : Nat) (op : Operation) (t : TensorId),
      ops[j]? = some op → t ∈ op.reads →
        ∃ (i : Nat) (writer : Operation),
          i < j ∧ ops[i]? = some writer ∧ writer.writes = some t
  load :
    ∀ t, .load t ∈ ops →
      ∃ tensor, table.Holds t .scratchpad tensor ∧ tensor.home.isSome
  store :
    ∀ t, .store t ∈ ops →
      ∃ tensor, table.Holds t .scratchpad tensor ∧
        tensor.exported.isSome
  product :
    ∀ input weights bias output,
      .matMul input weights bias output ∈ ops →
        ∃ tensor, table.Holds output .accumulator tensor
  sum :
    ∀ input output add, .accumulate input output add ∈ ops →
      ∃ tensor, table.Holds output .accumulator tensor
  activation :
    ∀ input output activation, .activate input output activation ∈ ops →
      (∃ tensor, table.Holds input .accumulator tensor) ∧
        ∃ tensor, table.Holds output .scratchpad tensor
  activated_last :
    ∀ t tensor, table.Holds t .accumulator tensor →
      ∃ (i : Nat) (output : TensorId) (activation : Activation),
        ops[i]? = some (.activate t output activation) ∧
        (∀ (j : Nat) (output' : TensorId) (activation' : Activation),
          ops[j]? = some (.activate t output' activation') → j = i) ∧
        ∀ (j : Nat) (op : Operation),
          ops[j]? = some op → t ∈ op.reads → j ≤ i

theorem mem_activated_iff
    {ops : List Operation}
    {t : TensorId} :
    t ∈ activated ops ↔
      ∃ (i : Nat) (output : TensorId) (activation : Activation),
        ops[i]? = some (.activate t output activation) := by
  unfold activated
  rw [List.mem_filterMap]
  constructor
  · rintro ⟨op, hMem, hActivates⟩
    rcases List.mem_iff_getElem?.mp hMem with ⟨i, hGet⟩
    cases op with
    | activate input output activation =>
        cases hActivates
        exact ⟨i, output, activation, hGet⟩
    | _ => cases hActivates
  · rintro ⟨i, output, activation, hGet⟩
    exact ⟨_, List.mem_of_getElem? hGet, rfl⟩

/-
  A well-formed program is disciplined once all accumulator
  tensors of its table are activated.
-/
theorem WellFormed.disciplined
    {n : Nat}
    {table : TensorTable}
    {ops : List Operation}
    (hForm : WellFormed n table ops)
    (hDrained :
      ∀ t tensor, table.Holds t .accumulator tensor →
        t ∈ activated ops) :
    Disciplined table ops := by
  have hSingle := hForm.singleAssignment
  constructor
  case written_once =>
    intro i j op op' t hGet hGet' hWrites hWrites'
    exact hSingle.writer_unique hGet hGet' hWrites hWrites'
  case written_before =>
    intro j op t hGet hReads
    exact hSingle.exists_writer hGet hReads
  case load =>
    intro t hMem
    cases hForm.typed hMem with
    | load hTensor hHome => exact ⟨_, hTensor, hHome⟩
  case store =>
    intro t hMem
    cases hForm.typed hMem with
    | store hTensor hExported => exact ⟨_, hTensor, hExported⟩
  case product =>
    intro input weights bias output hMem
    cases hForm.typed hMem with
    | matMul _ _ hOutput => exact ⟨_, hOutput⟩
  case sum =>
    intro input output add hMem
    cases hForm.typed hMem with
    | accumulate _ hOutput => exact ⟨_, hOutput⟩
  case activation =>
    intro input output activation hMem
    cases hForm.typed hMem with
    | activate hInput hOutput => exact ⟨⟨_, hInput⟩, _, hOutput⟩
  case activated_last =>
    intro t tensor hTensor
    rcases mem_activated_iff.mp (hDrained t tensor hTensor) with
      ⟨i, output, activation, hGet⟩
    have hLast :
        ∀ (j : Nat) (op : Operation),
          ops[j]? = some op → t ∈ op.reads → j ≤ i :=
      fun j op hGet' hReads =>
        hForm.le_of_activates hGet rfl hGet' hReads
    refine ⟨i, output, activation, hGet, ?_, hLast⟩
    intro j output' activation' hGet'
    have hBefore := hLast j _ hGet' List.mem_cons_self
    have hAfter :=
      hForm.le_of_activates hGet' rfl hGet List.mem_cons_self
    exact Nat.le_antisymm hBefore hAfter

/- A member of a list that has one place there is counted once. -/
theorem count_eq_one_of_place
    {α : Type}
    [DecidableEq α]
    {l : List α}
    {a : α}
    (hMem : a ∈ l)
    (hPlace :
      ∀ i j : Nat, l[i]? = some a → l[j]? = some a → i = j) :
    l.count a = 1 := by
  have hSome := List.count_pos_iff.mpr hMem
  have hFew : ¬ 2 ≤ l.count a := by
    intro hTwo
    rcases List.duplicate_iff_exists_distinct_get.mp
        (List.duplicate_iff_two_le_count.mpr hTwo) with
      ⟨i, j, hLt, hI, hJ⟩
    have hSame := hPlace i j (by simp [hI]) (by simp [hJ])
    exact Nat.ne_of_lt hLt hSame
  omega

/- A program stores a tensor as often as it has operations for it. -/
theorem Semantics.countP_stores
    {V : Type}
    (S : Semantics V)
    (home : TensorId → V)
    (ops : List Operation)
    (env : TensorId → V)
    (t : TensorId) :
    (S.stores home ops env).countP (fun e => e.1 = t) =
      ops.count (.store t) := by
  induction ops generalizing env with
  | nil => rfl
  | cons op ops ih =>
      cases op with
      | store u =>
          rw [stores, List.countP_cons, List.count_cons, ih]
          simp
      | _ => simpa [stores, List.count_cons] using ih _

namespace Lowering

variable [DecidableEq ν]
variable {p : Plan ν} {s s' : Lowering ν} {n : ν}
variable {bench : Workbench}

------------------------------------------------------------
-- What a Node Adds to the Table
------------------------------------------------------------

/- A request only gives tensors a place for the host. -/
theorem Exports.get?_eq_some
    {t : TensorId}
    {tensor : Tensor}
    (hExports : s.Exports n s')
    (hTensor : s'.bench.tensors.get? t = some tensor) :
    ∃ old, s.bench.tensors.get? t = some old ∧ old.Grows tensor := by
  cases hExports with
  | again =>
      rw [bench_push, bench_fetch] at hTensor
      exact ⟨tensor, hTensor, .refl tensor⟩
  | @first v known _ hKnown hNew =>
      have hGet := (TensorTable.get?_modify _ _ _ _).symm.trans hTensor
      split at hGet
      case isTrue hSame =>
        subst hSame
        rw [hKnown, Option.map_some] at hGet
        cases hGet
        exact ⟨known, hKnown, rfl, rfl, rfl, by simp [hNew],
          fun l hLocation => hLocation⟩
      case isFalse => exact ⟨tensor, hGet, .refl tensor⟩

theorem Computes.extends
    (hComputes : s.Computes p n s') :
    s.bench.tensors.Extends s'.bench.tensors := by
  cases hComputes.equips with
  | source =>
      intro t tensor hTensor
      refine ⟨tensor, ?_, .refl tensor⟩
      rw [get?_source, if_neg (ne_next hTensor), hTensor]
  | known _ hBench =>
      rw [hBench]
      exact .refl _
  | result _ _ _ _ hBench =>
      rw [hBench]
      exact (TensorTable.extends_add _ _).trans
        (TensorTable.extends_add _ _)

------------------------------------------------------------
-- Accumulator Tensors
------------------------------------------------------------

/- Every accumulator tensor is activated. -/
def Drained (s : Lowering ν) : Prop :=
  ∀ t tensor, s.bench.tensors.Holds t .accumulator tensor →
    t ∈ activated s.program

theorem Drained.computes
    (hDrained : s.Drained)
    (hComputes : s.Computes p n s') :
    s'.Drained := by
  have hMono : ∀ t ∈ activated s.program, t ∈ activated s'.program := by
    rcases (Adds.computes hComputes).program with ⟨ops, hProgram, -⟩
    intro t hMem
    rw [hProgram, activated, List.filterMap_append]
    exact List.mem_append_left _ hMem
  intro t tensor hTensor
  cases hComputes.equips with
  | source =>
      -- A source is in the local memory.
      have hGet := (get?_source s n _ _ _ _ t).symm.trans hTensor.1
      split at hGet
      · cases hGet
        cases hTensor.2
      · exact hDrained t tensor ⟨hGet, hTensor.2⟩
  | known _ hBench =>
      rw [hBench] at hTensor
      exact hMono t (hDrained t tensor hTensor)
  | result _ _ _ _ hBench hActivated =>
      rw [hBench] at hTensor
      have hGet := (TensorTable.get?_add _ _ t).symm.trans hTensor.1
      split at hGet
      · cases hGet
        cases hTensor.2
      · have hFirst := (TensorTable.get?_add _ _ t).symm.trans hGet
        split at hFirst
        case isTrue hNext =>
          rw [hNext]
          exact hActivated
        case isFalse =>
          exact hMono t (hDrained t tensor ⟨hFirst, hTensor.2⟩)

theorem Drained.exports
    (hDrained : s.Drained)
    (hExports : s.Exports n s') :
    s'.Drained := by
  intro t tensor hTensor
  rcases hExports.get?_eq_some hTensor.1 with ⟨old, hOld, hGrows⟩
  rcases hExports.effect with ⟨v, -, -, hProgram, -⟩
  rw [hProgram, mem_activated_push, activated_fetch]
  exact .inl (hDrained t old ⟨hOld, hGrows.kind_eq.symm.trans hTensor.2⟩)

/- Lowering leaves no result in the accumulator memory. -/
theorem LowersAll.drained
    {done : List ν}
    (hEmpty : bench.tensors = .empty)
    (hAll : (Lowering.start bench).LowersAll p done s) :
    s.Drained := by
  refine hAll.induct (I := fun _ s => s.Drained) ?_
    (fun _ _ _ _ hBefore hComputes => hBefore.computes hComputes)
    (fun _ _ _ _ hBefore hExports => hBefore.exports hExports)
  intro t tensor hTensor
  have hGet := hTensor.1
  simp [Lowering.start, hEmpty, TensorTable.get?, TensorTable.empty] at hGet

------------------------------------------------------------
-- Tensors of Sources
------------------------------------------------------------

/- The tensors with a home are those of the sources that are done. -/
structure Homed
    (p : Plan ν)
    (done : List ν)
    (s : Lowering ν) : Prop where
  home :
    ∀ n ∈ done, (p.network.op n).IsSource →
      ∃ v tensor, (n, v) ∈ s.values ∧
        s.bench.tensors.get? v.tensor = some tensor ∧ tensor.home.isSome
  source :
    ∀ t tensor, s.bench.tensors.get? t = some tensor →
      tensor.home.isSome →
        ∃ n v, n ∈ done ∧ (p.network.op n).IsSource ∧
          (n, v) ∈ s.values ∧ v.tensor = t

namespace Homed

variable {done : List ν}

/- Values and tensors stay, and no tensor gets a home. -/
omit [DecidableEq ν] in
theorem keep
    (hHomed : s.Homed p done)
    (hValues : ∀ entry ∈ s.values, entry ∈ s'.values)
    (hExtends : s.bench.tensors.Extends s'.bench.tensors)
    (hHomes :
      ∀ t tensor, s'.bench.tensors.get? t = some tensor →
        tensor.home.isSome →
          ∃ old, s.bench.tensors.get? t = some old ∧ old.home.isSome) :
    s'.Homed p done where
  home := by
    intro k hDone hSource
    rcases hHomed.home k hDone hSource with
      ⟨v, tensor, hEntry, hTensor, hHome⟩
    rcases hExtends v.tensor tensor hTensor with ⟨grown, hGrown, hGrows⟩
    exact ⟨v, grown, hValues _ hEntry, hGrown, hGrows.home_eq ▸ hHome⟩
  source := by
    intro t tensor hTensor hHome
    rcases hHomes t tensor hTensor hHome with ⟨old, hOld, hOldHome⟩
    rcases hHomed.source t old hOld hOldHome with
      ⟨k, v, hDone, hSource, hEntry, hSame⟩
    exact ⟨k, v, hDone, hSource, hValues _ hEntry, hSame⟩

/- A node that is no source is done. -/
omit [DecidableEq ν] in
theorem pass
    (hHomed : s.Homed p done)
    (hOther : ¬ (p.network.op n).IsSource) :
    s.Homed p (done ++ [n]) where
  home := by
    intro k hMem hSource
    rcases List.mem_append.mp hMem with hDone | hLast
    · exact hHomed.home k hDone hSource
    · rcases List.mem_singleton.mp hLast with rfl
      exact absurd hSource hOther
  source := by
    intro t tensor hTensor hHome
    rcases hHomed.source t tensor hTensor hHome with
      ⟨k, v, hDone, hRest⟩
    exact ⟨k, v, List.mem_append_left _ hDone, hRest⟩

theorem computes
    (hHomed : s.Homed p done)
    (hComputes : s.Computes p n s') :
    s'.Homed p (done ++ [n]) := by
  have hValues := (Adds.computes hComputes).values
  have hExtends := hComputes.extends
  cases hComputes.equips with
  | @source _ layout name role bank hIsSource =>
      have hNew := get?_source s n name layout role bank
      constructor
      case home =>
        intro k hMem hSource
        rcases List.mem_append.mp hMem with hDone | hLast
        · rcases hHomed.home k hDone hSource with
            ⟨v, tensor, hEntry, hTensor, hHome⟩
          rcases hExtends v.tensor tensor hTensor with
            ⟨grown, hGet, hGrows⟩
          exact ⟨v, grown, hValues _ hEntry, hGet, hGrows.home_eq ▸ hHome⟩
        · rcases List.mem_singleton.mp hLast with rfl
          exact ⟨_, _, List.mem_cons_self, (hNew s.next).trans (if_pos rfl),
            rfl⟩
      case source =>
        intro t tensor hTensor hHome
        have hGet := (hNew t).symm.trans hTensor
        split at hGet
        case isTrue hNext =>
          exact ⟨n, _, List.mem_append_right _ (List.mem_singleton.mpr rfl),
            hIsSource, List.mem_cons_self, hNext.symm⟩
        case isFalse =>
          rcases hHomed.source t tensor hGet hHome with
            ⟨k, v, hDone, hSource, hEntry, hTensor⟩
          exact ⟨k, v, List.mem_append_left _ hDone, hSource,
            hValues _ hEntry, hTensor⟩
  | known hOther hBench =>
      refine (hHomed.keep hValues hExtends ?_).pass hOther
      intro t tensor hTensor hHome
      rw [hBench] at hTensor
      exact ⟨tensor, hTensor, hHome⟩
  | result hOther _ _ _ hBench =>
      refine (hHomed.keep hValues hExtends ?_).pass hOther
      intro t tensor hTensor hHome
      rw [hBench] at hTensor
      have hGet := (TensorTable.get?_add _ _ t).symm.trans hTensor
      split at hGet
      · cases hGet
        cases hHome
      · have hFirst := (TensorTable.get?_add _ _ t).symm.trans hGet
        split at hFirst
        · cases hFirst
          cases hHome
        · exact ⟨tensor, hFirst, hHome⟩

theorem exports
    (hHomed : s.Homed p done)
    (hExports : s.Exports n s') :
    s'.Homed p done := by
  rcases hExports.effect with ⟨v, -, hValues, -, hExtends⟩
  rw [bench_fetch] at hExtends
  refine hHomed.keep ?_ hExtends ?_
  · intro entry hEntry
    rw [hValues]
    exact Adds.fetch.values entry hEntry
  · intro t tensor hTensor hHome
    rcases hExports.get?_eq_some hTensor with ⟨old, hOld, hGrows⟩
    exact ⟨old, hOld, hGrows.home_eq ▸ hHome⟩

end Homed

/- Lowering gives a home to the sources and to nothing else. -/
theorem LowersAll.homed
    {done : List ν}
    (hEmpty : bench.tensors = .empty)
    (hAll : (Lowering.start bench).LowersAll p done s) :
    s.Homed p done := by
  refine hAll.induct (I := fun done s => s.Homed p done) ⟨by simp, ?_⟩
    (fun _ _ _ _ hBefore hComputes => hBefore.computes hComputes)
    (fun _ _ _ _ hBefore hExports => hBefore.exports hExports)
  intro t tensor hTensor
  simp [Lowering.start, hEmpty, TensorTable.get?, TensorTable.empty]
    at hTensor

------------------------------------------------------------
-- Loads and Stores
------------------------------------------------------------

/-
  A program loads each source that outputs need once, before its
  first use, and stores each of the outputs once, and it has no
  other loads and stores.
-/
structure Transfers
    (net : Network ν)
    (outputs : List String)
    (roots : List ν)
    (s : Lowering ν) : Prop where
  loaded :
    ∀ n, net.Needed outputs n → (net.op n).IsSource →
      ∃ t, s.tensor? n = some t ∧ s.program.count (.load t) = 1
  loaded_first :
    ∀ (t : TensorId) (i j : Nat) (op : Operation),
      s.program[i]? = some (.load t) →
        s.program[j]? = some op → t ∈ op.reads → i < j
  load_source :
    ∀ t, .load t ∈ s.program →
      ∃ n, net.Needed outputs n ∧ (net.op n).IsSource ∧
        s.tensor? n = some t
  sources_apart :
    ∀ n k, net.Needed outputs n → (net.op n).IsSource →
      net.Needed outputs k → (net.op k).IsSource →
        s.tensor? n = s.tensor? k → n = k
  stored :
    ∀ n ∈ roots,
      ∃ t, s.tensor? n = some t ∧ s.program.count (.store t) = 1
  store_output :
    ∀ t, .store t ∈ s.program → ∃ n ∈ roots, s.tensor? n = some t
  outputs_apart :
    ∀ n ∈ roots, ∀ k ∈ roots, s.tensor? n = s.tensor? k → n = k

/- Nodes in their computation order load sources and store outputs. -/
theorem LowersAll.transfers
    {net : Network ν}
    {outputs : List String}
    {nodes roots : List ν}
    (hEmpty : bench.tensors = .empty)
    (hOrder : net.order outputs = .ok nodes)
    (hRoots : net.roots outputs = .ok roots)
    (hAll :
      (Lowering.start bench).LowersAll
        { network := net, nodes, outputs := roots } nodes s)
    (hSound : s.Sound { network := net, nodes, outputs := roots }) :
    s.Transfers net outputs roots := by
  rcases net.order_ordered hOrder with ⟨_, hRoots', hOrdered, hAmong⟩
  cases hRoots.symm.trans hRoots'
  have hSingle := hSound.program.singleAssignment
  have hHomed := hAll.homed hEmpty
  have hFaithful := hAll.faithful_unit hOrdered
  have hMaps := hFaithful.maps
  have hStores := fun t => Semantics.countP_stores
    (Interpretation.unit (ν := ν)).semantics (fun _ => ()) s.program
    (fun _ => ()) t
  have hEntryOf :
      ∀ k, net.Needed outputs k → (net.op k).IsSource →
        ∃ v tensor, (k, v) ∈ s.values ∧
          s.bench.tensors.get? v.tensor = some tensor ∧
          tensor.home.isSome :=
    fun k hNeeded hSource =>
      hHomed.home k ((Network.mem_order_iff hOrder).mpr hNeeded) hSource
  constructor
  case loaded =>
    intro k hNeeded hSource
    rcases hEntryOf k hNeeded hSource with
      ⟨v, tensor, hEntry, hTensor, hHome⟩
    have hLoad := hAll.loaded hEmpty hOrder hRoots hTensor hHome
    refine ⟨v.tensor, hMaps.tensor?_eq hEntry, ?_⟩
    apply count_eq_one_of_place hLoad
    intro i j hGet hGet'
    exact hSingle.writer_unique hGet hGet' rfl rfl
  case loaded_first =>
    intro t i j op hLoad hGet hReads
    rcases hSingle.exists_writer hGet hReads with
      ⟨k, writer, hBefore, hWriter, hWrites⟩
    rw [hSingle.writer_unique hLoad hWriter rfl hWrites]
    exact hBefore
  case load_source =>
    intro t hLoad
    cases hSound.program.typed hLoad with
    | load hTensor hHome =>
        rcases hHomed.source t _ hTensor.1 hHome with
          ⟨k, v, hDone, hSource, hEntry, rfl⟩
        exact ⟨k, (Network.mem_order_iff hOrder).mp hDone, hSource,
          hMaps.tensor?_eq hEntry⟩
  case sources_apart =>
    intro n k hNeeded hSource hNeeded' hSource' hSame
    rcases hEntryOf n hNeeded hSource with ⟨v, -, hEntry, -⟩
    rcases hEntryOf k hNeeded' hSource' with ⟨u, -, hEntry', -⟩
    have hMeaning := hMaps.meaning_eq hEntry hEntry' hSame
    rwa [Plan.meaning_of_source hSource, Plan.meaning_of_source hSource']
      at hMeaning
  case stored =>
    intro k hRoot
    rcases hFaithful.stored_once k hRoot (hAmong k hRoot) with
      ⟨v, x, hEntry, hOnce⟩
    refine ⟨v.tensor, hMaps.tensor?_eq hEntry, ?_⟩
    rw [← hStores, List.countP_eq_length_filter, hOnce,
      List.length_singleton]
  case store_output =>
    intro t hStore
    have hPos := List.count_pos_iff.mpr hStore
    rw [← hStores] at hPos
    rcases List.countP_pos_iff.mp hPos with ⟨e, hMem, hTensor⟩
    rcases hFaithful.store_denotes e.1 e.2 hMem with
      ⟨k, v, hRoot, -, hEntry, hSame, -⟩
    refine ⟨k, hRoot, ?_⟩
    rw [hMaps.tensor?_eq hEntry, hSame, of_decide_eq_true hTensor]
  case outputs_apart =>
    intro n hRoot k hRoot' hSame
    rcases hFaithful.stored_once n hRoot (hAmong n hRoot) with
      ⟨v, -, hEntry, -⟩
    rcases hFaithful.stored_once k hRoot' (hAmong k hRoot') with
      ⟨u, -, hEntry', -⟩
    have hMeaning := hMaps.meaning_eq hEntry hEntry' hSame
    rwa [Plan.meaning_of_output hRoot, Plan.meaning_of_output hRoot']
      at hMeaning

end Lowering

------------------------------------------------------------
-- Programs
------------------------------------------------------------

/-
  A lowered program is disciplined, for any list of nodes. For the
  nodes in their computation order, it loads each source that the
  outputs need exactly once, before its first use, and stores each
  output exactly once.
-/
theorem lowerNodes_disciplined
    [DecidableEq ν]
    (net : Network ν)
    (outputs : List String)
    (nodes : List ν)
    {m : Machine}
    {bench bench' : Workbench}
    {program : List Operation}
    (hBench : Workbench.ofMachine m = .ok bench)
    (hLower : lowerNodes net outputs nodes bench = .ok (program, bench')) :
    Disciplined bench'.tensors program ∧
    (net.order outputs = .ok nodes →
      ∃ roots s,
        net.roots outputs = .ok roots ∧
        (nodes.forM (Lower.node { network := net, nodes
                                  outputs := roots }))
          (Lowering.start bench) = .ok () s ∧
        s.program = program ∧ s.bench = bench' ∧
        s.Transfers net outputs roots) := by
  rcases Workbench.ofMachine_ok hBench with ⟨hSize, layout, -, rfl⟩
  rcases lowered_of_lowerNodes hSize hLower with
    ⟨roots, s, ⟨hRoots, hAll, hSound, hRun⟩, rfl, rfl⟩
  refine ⟨hSound.program.disciplined (hAll.drained rfl), ?_⟩
  intro hOrder
  exact ⟨roots, s, hRoots, hRun, rfl, rfl,
    hAll.transfers rfl hOrder hRoots hSound⟩

/-
  The nodes of the block in their order, and with a product, a
  source and an output that come up again.
-/
theorem lowerNodes_disciplined_residualBlock :
    (∃ (program : List Operation) (bench : Workbench)
        (s : Lowering (Fin 5)),
      lowerNodes residualBlock ["rectified", "sum"] [0, 1, 2, 3, 4]
        residualBench = .ok (program, bench) ∧
      Disciplined bench.tensors program ∧
      s.program = program ∧
      s.Transfers residualBlock ["rectified", "sum"] [3, 4]) ∧
    ∃ (program : List Operation) (bench : Workbench),
      lowerNodes residualBlock ["rectified", "sum"]
        [0, 1, 2, 2, 3, 4, 0, 3] residualBench = .ok (program, bench) ∧
      program.length = 14 ∧ Disciplined bench.tensors program := by
  have hBench : Workbench.ofMachine .standard = .ok residualBench := by
    decide +kernel
  constructor
  · have hOrder :
        residualBlock.order ["rectified", "sum"] = .ok [0, 1, 2, 3, 4] := by
      decide +kernel
    have hSome :
        (lowerNodes residualBlock ["rectified", "sum"] [0, 1, 2, 3, 4]
          residualBench).toOption.isSome = true := by
      decide +kernel
    cases hLower :
        lowerNodes residualBlock ["rectified", "sum"] [0, 1, 2, 3, 4]
          residualBench with
    | error e =>
        rw [hLower] at hSome
        cases hSome
    | ok result =>
        rcases lowerNodes_disciplined residualBlock ["rectified", "sum"]
            [0, 1, 2, 3, 4] hBench hLower with
          ⟨hDisciplined, hInOrder⟩
        rcases hInOrder hOrder with
          ⟨roots, s, hRoots, -, hProgram, -, hTransfers⟩
        cases hRoots
        exact ⟨_, _, s, rfl, hDisciplined, hProgram, hTransfers⟩
  · have hLength :
        (lowerNodes residualBlock ["rectified", "sum"]
          [0, 1, 2, 2, 3, 4, 0, 3] residualBench).toOption.map
            (·.1.length) = some 14 := by
      decide +kernel
    cases hLower :
        lowerNodes residualBlock ["rectified", "sum"]
          [0, 1, 2, 2, 3, 4, 0, 3] residualBench with
    | error e =>
        rw [hLower] at hLength
        cases hLength
    | ok result =>
        rw [hLower] at hLength
        have hDisciplined := (lowerNodes_disciplined residualBlock
          ["rectified", "sum"] [0, 1, 2, 2, 3, 4, 0, 3] hBench hLower).1
        exact ⟨_, _, rfl, Option.some.inj hLength, hDisciplined⟩

end Systolic
