import Systolic.Schedule.Basic

/-
  This file defines the books of a scheduler. For each place of
  a program they say whether the operation there is committed,
  for each tensor which operation defines it, which ones read
  it, how many of these are pending and when its value is ready,
  and for each unit when its last operation ends.

  All of this could be found by a search of the pending and the
  committed operations. The books agree with such searches from
  the start, and every entry keeps them so.

  Key definitions include:
    * `UnitCycles`
    * `ProgramIndex`
    * `Ledger`
    * `Ledger.append`
    * `Ledger.retire`
    * `Ledger.Agrees`

  Key theorems include:
    * `Ledger.agrees_start`
    * `Ledger.Agrees.append`
    * `Ledger.Agrees.retire`
-/

namespace Systolic

------------------------------------------------------------
-- Cycles of Units
------------------------------------------------------------

/- A number of cycles for each unit. -/
structure UnitCycles where
  load : Nat
  compute : Nat
  store : Nat
deriving DecidableEq, Repr

namespace UnitCycles

/- No cycles for any unit. -/
def zero : UnitCycles :=
  { load := 0, compute := 0, store := 0 }

/- The cycles of a unit. -/
def get
    (c : UnitCycles) : Resource → Nat
| .load => c.load
| .compute => c.compute
| .store => c.store

/- Set the cycles of a unit. -/
def set
    (c : UnitCycles)
    (r : Resource)
    (n : Nat) : UnitCycles :=
  match r with
  | .load => { c with load := n }
  | .compute => { c with compute := n }
  | .store => { c with store := n }

theorem get_set
    (c : UnitCycles)
    (r s : Resource)
    (n : Nat) :
    (c.set r n).get s = if r = s then n else c.get s := by
  cases r <;> cases s <;> rfl

end UnitCycles

------------------------------------------------------------
-- Places of a Program
------------------------------------------------------------

/- The operations of a program with their places. -/
def located (program : List Operation) : List (Nat × Operation) :=
  program.zipIdx.map (fun p => (p.2, p.1))

theorem mem_located
    {program : List Operation}
    {i : Nat}
    {op : Operation} :
    (i, op) ∈ located program ↔ program[i]? = some op := by
  rw [located, List.mem_map]
  constructor
  · rintro ⟨⟨op', j⟩, hPair, hSame⟩
    cases hSame
    exact List.mem_zipIdx_iff_getElem?.mp hPair
  · intro hGet
    exact ⟨(op, i), List.mem_zipIdx_iff_getElem?.mpr hGet, rfl⟩

theorem map_fst_located (program : List Operation) :
    (located program).map Prod.fst = List.range program.length := by
  rw [located, List.map_map, List.range_eq_range']
  exact List.zipIdx_map_snd 0 program

theorem map_snd_located (program : List Operation) :
    (located program).map Prod.snd = program := by
  rw [located, List.map_map]
  exact List.zipIdx_map_fst 0 program

theorem pairwise_located (program : List Operation) :
    (located program).Pairwise (fun p q => p.1 < q.1) := by
  rw [← List.pairwise_map, map_fst_located]
  exact List.pairwise_lt_range

/-
  For each tensor, the place of the operation that defines it
  and the places of those that read it, in the order of the
  program.
-/
structure ProgramIndex where
  producer : TensorId → Option Nat
  readers : TensorId → List Nat

namespace ProgramIndex

/- List what an operation defines and reads. -/
def enroll
    (x : ProgramIndex)
    (p : Nat × Operation) : ProgramIndex :=
  { producer := fun t =>
      if p.2.writes = some t then some p.1 else x.producer t
    readers := fun t =>
      if p.2.reading t then x.readers t ++ [p.1] else x.readers t }

/- The tensors of some operations of a program. -/
def ofPlaces (ps : List (Nat × Operation)) : ProgramIndex :=
  ps.foldl enroll { producer := fun _ => none, readers := fun _ => [] }

/- A tensor is defined by the last operation that writes it. -/
theorem producer_ofPlaces
    (ps : List (Nat × Operation))
    (t : TensorId) :
    (ofPlaces ps).producer t =
      (ps.reverse.find? (fun p => p.2.writes = some t)).map (·.1) := by
  have hFold :
      ∀ x : ProgramIndex, (ps.foldl enroll x).producer t =
        ((ps.reverse.find? (fun p => p.2.writes = some t)).map
          (·.1)).or (x.producer t) := by
    induction ps with
    | nil => exact fun x => rfl
    | cons p ps ih =>
        intro x
        rw [List.foldl_cons, ih, List.reverse_cons, List.find?_append]
        cases ps.reverse.find? (fun p => p.2.writes = some t) with
        | some q => rfl
        | none => by_cases hWrites : p.2.writes = some t <;>
            simp [enroll, hWrites]
  exact (hFold _).trans (Option.or_none)

theorem readers_ofPlaces
    (ps : List (Nat × Operation))
    (t : TensorId) :
    (ofPlaces ps).readers t =
      (ps.filter (fun p => p.2.reading t)).map (·.1) := by
  have hFold :
      ∀ x : ProgramIndex, (ps.foldl enroll x).readers t =
        x.readers t ++ (ps.filter (fun p => p.2.reading t)).map (·.1) := by
    induction ps with
    | nil => simp
    | cons p ps ih =>
        intro x
        rw [List.foldl_cons, ih, List.filter_cons]
        by_cases hReads : p.2.reading t <;> simp [enroll, hReads]
  exact hFold _

end ProgramIndex

------------------------------------------------------------
-- Books
------------------------------------------------------------

/-
  The books of a scheduler: the program and its index, the
  pending operations with their places, what is committed, with
  its instructions, both newest first, and what is counted. A
  place is retired once its operation is committed. A tensor has
  the number of its readers that are pending, and the end of the
  operation that wrote it last. The number of instructions in
  the stream is counted as well.
-/
structure Ledger where
  program : List Operation
  index : ProgramIndex
  pending : List (Nat × Operation)
  committed : List CommittedOp
  emitted : List Encoded
  retired : Nat → Bool
  remaining : TensorId → Nat
  definedAt : TensorId → Option Nat
  freeAt : UnitCycles
  streamed : Nat

namespace Ledger

/- The books of a program of which nothing is committed. -/
def start (program : List Operation) : Ledger :=
  let index := ProgramIndex.ofPlaces (located program)
  { program
    index
    pending := located program
    committed := []
    emitted := []
    retired := fun _ => false
    remaining := fun t => (index.readers t).length
    definedAt := fun _ => none
    freeAt := UnitCycles.zero
    streamed := 0 }

/- The first cycle in which an operation can start. -/
def readyAt
    (l : Ledger)
    (op : Operation) : Nat :=
  (op.reads.filterMap l.definedAt).foldl max (l.freeAt.get op.resource)

/- The place of the first pending operation that reads a tensor. -/
def nextUse?
    (l : Ledger)
    (t : TensorId) : Option Nat :=
  (l.index.readers t).find? (fun i => ¬ l.retired i)

/- What defines the tensors that an operation reads is committed. -/
def inputsCommitted
    (l : Ledger)
    (op : Operation) : Bool :=
  op.reads.all (fun t => (l.index.producer t).any l.retired)

/- An operation as it is committed now. -/
def entry
    (l : Ledger)
    (op : Operation)
    (origin : Option Nat)
    (encoded : Encoded)
    (cycles : Nat) : CommittedOp :=
  let startCycle := l.readyAt op
  { operation := op
    origin
    resource := op.resource
    startCycle
    endCycle := Count.addSat startCycle cycles
    firstInstruction := l.streamed
    lastInstruction := l.streamed + encoded.instructions.length }

/- Enter an operation with its instructions and its cycles. -/
def append
    (l : Ledger)
    (op : Operation)
    (origin : Option Nat)
    (encoded : Encoded)
    (cycles : Nat) : Ledger :=
  let c := l.entry op origin encoded cycles
  { l with
    committed := c :: l.committed
    emitted := encoded :: l.emitted
    definedAt := fun t =>
      if op.writes = some t then some c.endCycle else l.definedAt t
    freeAt := l.freeAt.set op.resource c.endCycle
    streamed := c.lastInstruction }

/- Take the operation at a place from the pending ones, if it is one. -/
def retire
    (l : Ledger)
    (i : Nat) : Ledger :=
  match l.pending.find? (fun p => p.1 = i) with
  | none => l
  | some p =>
      { l with
        pending := l.pending.eraseP (fun p => p.1 = i)
        retired := fun k => k = i || l.retired k
        remaining := fun t =>
          if p.2.reading t then l.remaining t - 1 else l.remaining t }

section Retire

variable (l : Ledger) (i : Nat)

@[simp] theorem pending_retire :
    (l.retire i).pending = l.pending.eraseP (fun p => p.1 = i) := by
  unfold retire
  split
  case h_1 hNone =>
    refine (List.eraseP_of_forall_not ?_).symm
    exact List.find?_eq_none.mp hNone
  case h_2 => rfl

@[simp] theorem program_retire :
    (l.retire i).program = l.program := by
  unfold retire
  split <;> rfl

@[simp] theorem committed_retire :
    (l.retire i).committed = l.committed := by
  unfold retire
  split <;> rfl

@[simp] theorem emitted_retire :
    (l.retire i).emitted = l.emitted := by
  unfold retire
  split <;> rfl

end Retire

------------------------------------------------------------
-- Agreement with Searches
------------------------------------------------------------

/- What is counted is what a search would find. -/
structure Agrees (l : Ledger) : Prop where
  index : l.index = ProgramIndex.ofPlaces (located l.program)
  pending :
    l.pending = (located l.program).filter (fun p => ¬ l.retired p.1)
  remaining :
    ∀ t, l.remaining t = l.pending.countP (fun p => p.2.reading t)
  definedAt :
    ∀ t, l.definedAt t =
      (l.committed.find? (fun c => c.operation.writes = some t)).map
        (·.endCycle)
  freeAt :
    ∀ r, l.freeAt.get r =
      ((l.committed.find? (fun c => c.resource = r)).map
        (·.endCycle)).getD 0
  streamed : l.streamed = (l.emitted.flatMap (·.instructions)).length
  last : l.streamed = (l.committed.head?.map (·.lastInstruction)).getD 0

/- The books of a program agree at the start. -/
theorem agrees_start (program : List Operation) :
    (start program).Agrees := by
  constructor
  case index => rfl
  case pending => exact (List.filter_eq_self.mpr (fun _ _ => rfl)).symm
  case remaining =>
    intro t
    simp only [start, ProgramIndex.readers_ofPlaces, List.length_map,
      List.countP_eq_length_filter]
  case definedAt => exact fun t => rfl
  case freeAt => exact fun r => by cases r <;> rfl
  case streamed => rfl
  case last => rfl

/- An operation that is entered keeps the books in agreement. -/
theorem Agrees.append
    {l : Ledger}
    (hAgrees : l.Agrees)
    (op : Operation)
    (origin : Option Nat)
    (encoded : Encoded)
    (cycles : Nat) :
    (l.append op origin encoded cycles).Agrees := by
  constructor
  case index => exact hAgrees.index
  case pending => exact hAgrees.pending
  case remaining => exact hAgrees.remaining
  case definedAt =>
    intro t
    simp only [Ledger.append, entry, List.find?_cons]
    by_cases hWrites : op.writes = some t
    · simp [hWrites]
    · simp [hWrites, hAgrees.definedAt t]
  case freeAt =>
    intro r
    simp only [Ledger.append, entry, List.find?_cons, UnitCycles.get_set]
    by_cases hResource : op.resource = r
    · simp [hResource]
    · simp [hResource, hAgrees.freeAt r]
  case streamed =>
    simp only [Ledger.append, entry, List.flatMap_cons, List.length_append,
      hAgrees.streamed, Nat.add_comm]
  case last => rfl

/- An element that is found is counted before it is taken away. -/
theorem countP_eraseP_of_find?
    {α : Type}
    {l : List α}
    {p q : α → Bool}
    {a : α}
    (hFind : l.find? p = some a) :
    (l.eraseP p).countP q =
      if q a then l.countP q - 1 else l.countP q := by
  rcases List.find?_eq_some_iff_append.mp hFind with
    ⟨hA, before, after, rfl, hNone⟩
  have hBefore : ∀ b ∈ before, ¬ p b = true := by
    intro b hMem
    simpa using hNone b hMem
  rw [List.eraseP_append_right _ hBefore, List.eraseP_cons_of_pos hA,
    List.countP_append, List.countP_append, List.countP_cons]
  split <;> omega

/- In a list of places, taking one away leaves all others. -/
theorem eraseP_eq_filter
    {ps : List (Nat × Operation)}
    (hSorted : ps.Pairwise (fun p q => p.1 < q.1))
    (i : Nat) :
    ps.eraseP (fun p => p.1 = i) = ps.filter (fun p => ¬ p.1 = i) := by
  induction ps with
  | nil => rfl
  | cons p ps ih =>
      rcases List.pairwise_cons.mp hSorted with ⟨hHead, hTail⟩
      by_cases hPlace : p.1 = i
      · have hRest : ps.filter (fun q => ¬ q.1 = i) = ps := by
          rw [List.filter_eq_self]
          intro q hMem
          have hLater := hHead q hMem
          rw [decide_eq_true_iff]
          omega
        rw [List.eraseP_cons_of_pos (by simpa using hPlace),
          List.filter_cons_of_neg (by simpa using hPlace), hRest]
      · rw [List.eraseP_cons_of_neg (by simpa using hPlace),
          List.filter_cons_of_pos (by simpa using hPlace), ih hTail]

section

variable {l : Ledger} (hAgrees : l.Agrees)
include hAgrees

/- The pending operations are those that are not retired. -/
theorem Agrees.mem_pending
    {i : Nat}
    {op : Operation} :
    (i, op) ∈ l.pending ↔
      l.program[i]? = some op ∧ l.retired i = false := by
  rw [hAgrees.pending, List.mem_filter, mem_located]
  simp

theorem Agrees.sorted :
    l.pending.Pairwise (fun p q => p.1 < q.1) := by
  rw [hAgrees.pending]
  exact (pairwise_located l.program).sublist List.filter_sublist

/- An operation that is retired keeps the books in agreement. -/
theorem Agrees.retire
    (i : Nat) :
    (l.retire i).Agrees := by
  unfold Ledger.retire
  split
  case h_1 => exact hAgrees
  case h_2 p hFind =>
    constructor
    case index => exact hAgrees.index
    case pending =>
      simp only
      rw [eraseP_eq_filter hAgrees.sorted, hAgrees.pending,
        List.filter_filter]
      apply List.filter_congr
      intro q _
      by_cases hPlace : q.1 = i <;> simp [hPlace]
    case remaining =>
      intro t
      simp only [countP_eraseP_of_find? hFind, hAgrees.remaining t]
    case definedAt => exact hAgrees.definedAt
    case freeAt => exact hAgrees.freeAt
    case streamed => exact hAgrees.streamed
    case last => exact hAgrees.last

/- The next use of a tensor is found among the pending operations. -/
theorem Agrees.nextUse?_eq
    (t : TensorId) :
    l.nextUse? t = (l.pending.find? (fun p => p.2.reading t)).map (·.1) := by
  rw [nextUse?, hAgrees.index, ProgramIndex.readers_ofPlaces,
    List.find?_map, List.find?_filter, hAgrees.pending, List.find?_filter]
  congr 2
  funext p
  simp [Bool.and_comm]

/- No reader of a tensor remains exactly if no pending operation reads it. -/
theorem Agrees.remaining_eq_zero_iff
    (t : TensorId) :
    l.remaining t = 0 ↔ ∀ p ∈ l.pending, t ∉ p.2.reads := by
  rw [hAgrees.remaining, List.countP_eq_zero]
  simp only [Operation.reading_iff_mem_reads]

theorem Agrees.remaining_eq_zero_iff_nextUse?
    (t : TensorId) :
    l.remaining t = 0 ↔ l.nextUse? t = none := by
  rw [hAgrees.remaining, List.countP_eq_zero, hAgrees.nextUse?_eq,
    Option.map_eq_none_iff, List.find?_eq_none]

end

end Ledger

end Systolic
