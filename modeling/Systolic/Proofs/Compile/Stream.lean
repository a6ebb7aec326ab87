import Systolic.Proofs.Compile.Confine

/-
  This file proves that the stream of a compiled network agrees
  with its committed operations: their ranges follow each other
  from the first instruction to the last, and the bytes are the
  words of the instructions one after the other, so that they can
  be decoded.

  Key definitions include:
    * `CommittedOp.Consecutive`
    * `Journal.Streams`

  Key theorems include:
    * `Journal.Streams.step`
    * `WordLayout.decodeStream_of_mapM`
    * `Compiles.streams`
    * `Compiles.decodeStream`
-/

namespace Systolic

------------------------------------------------------------
-- Ranges
------------------------------------------------------------

namespace CommittedOp

/- The numbers of the instructions of an operation. -/
def range (op : CommittedOp) : List Nat :=
  List.range' op.firstInstruction
    (op.lastInstruction - op.firstInstruction)

/-
  The first operation starts with the first instruction, each one
  starts where the one before it ends, and the last one ends
  before a given number.
-/
inductive Consecutive : List CommittedOp → Nat → Prop
| nil : Consecutive [] 0
| snoc {ops : List CommittedOp} {op : CommittedOp} {first last : Nat}
    (hOps : Consecutive ops first)
    (hFirst : op.firstInstruction = first)
    (hLast : op.lastInstruction = last)
    (hRange : first ≤ last) :
    Consecutive (ops ++ [op]) last

/- Ranges that follow each other hold every number once. -/
theorem Consecutive.flatMap_range
    {ops : List CommittedOp}
    {count : Nat}
    (hOps : Consecutive ops count) :
    ops.flatMap range = List.range count := by
  induction hOps with
  | nil => rfl
  | @snoc ops op first last _ hFirst hLast hRange ih =>
      have hCount : last = first + (last - first) := by omega
      rw [List.flatMap_append, ih, List.flatMap_singleton, range, hFirst,
        hLast]
      conv_rhs => rw [hCount]
      rw [List.range_eq_range', List.range_eq_range',
        ← List.range'_append_1, Nat.zero_add]

end CommittedOp

------------------------------------------------------------
-- Journals
------------------------------------------------------------

namespace Journal

/-
  The ranges of the committed operations cover the instructions,
  and the bytes are the words of the instructions.
-/
structure Streams
    (w : WordLayout)
    (j : Journal) : Prop where
  consecutive :
    CommittedOp.Consecutive j.ops j.instructions.length
  words :
    ∃ words,
      j.instructions.mapM w.encode = .ok words ∧
        j.emitted.flatMap (·.bytes) = words.flatten

/- The instructions are counted by the last operation. -/
theorem instructionCount_eq
    {j : Journal}
    {count : Nat}
    (hOps : CommittedOp.Consecutive j.ops count) :
    j.instructionCount = count := by
  unfold instructionCount
  generalize j.ops = ops at hOps ⊢
  cases hOps with
  | nil => rfl
  | snoc _ _ hLast =>
      rw [List.getLast?_append]
      exact hLast

namespace Streams

variable {task : Task} {j j' : Journal} {v : View}

/- An operation is entered with its instructions and their words. -/
theorem enter
    {c : CommittedOp}
    {e : Encoded}
    (hStreams : j.Streams task.layout)
    (hEnters : j.Enters task v c e) :
    (j.entered v c e).Streams task.layout := by
  rcases hEnters with ⟨p, -, hRecords⟩
  have hCount := instructionCount_eq hStreams.consecutive
  have hAll :
      (j.entered v c e).instructions =
        j.instructions ++ e.instructions := by
    simp [instructions, entered]
  constructor
  case consecutive =>
    rw [hAll, List.length_append, ← hCount]
    refine .snoc hStreams.consecutive ?_ hRecords.last_eq ?_
    · rw [hRecords.first_eq, hCount]
    · rw [hCount]
      exact Nat.le_add_right _ _
  case words =>
    rcases hStreams.words with ⟨before, hBefore, hBytes⟩
    rcases Operation.encode_words hRecords.encoded with
      ⟨added, hAdded, hAddedBytes⟩
    refine ⟨before ++ added, ?_, ?_⟩
    · rw [hAll, List.mapM_append, hBefore, hAdded]
      rfl
    · change (j.emitted ++ [e]).flatMap (·.bytes) = _
      rw [List.flatMap_append, hBytes, List.flatMap_singleton, hAddedBytes,
        List.flatten_append]

theorem step
    (hStreams : j.Streams task.layout)
    (hStep : j.Step task j') :
    j'.Streams task.layout := by
  cases hStep with
  | silent => exact ⟨hStreams.consecutive, hStreams.words⟩
  | insert _ _ _ _ hEnters => exact hStreams.enter hEnters
  | commit _ _ _ hEnters => exact hStreams.enter hEnters

end Streams

end Journal

------------------------------------------------------------
-- Compiled Networks
------------------------------------------------------------

/- Words of instructions can be read back. -/
theorem WordLayout.decodeStream_of_mapM
    {w : WordLayout}
    {is : List Instruction}
    {words : List (List UInt8)}
    (hSound : w.Sound)
    (hCounted : ∀ i ∈ is, i.Counted)
    (hWords : is.mapM w.encode = .ok words) :
    w.decodeStream words.flatten = .ok is := by
  apply decodeStream_flatten hSound
  induction is generalizing words with
  | nil =>
      cases hWords
      exact .nil
  | cons i is ih =>
      rw [List.forall_mem_cons] at hCounted
      rw [List.mapM_cons] at hWords
      cases hWord : w.encode i with
      | error e =>
          rw [hWord] at hWords
          cases hWords
      | ok word =>
          cases hRest : is.mapM w.encode with
          | error e =>
              rw [hWord, hRest] at hWords
              cases hWords
          | ok rest =>
              rw [hWord, hRest] at hWords
              cases hWords
              exact .cons ⟨hCounted.1, hWord⟩ (ih hCounted.2 hRest)

namespace Compiles

variable {ν : Type} [DecidableEq ν]
variable {net : Network ν} {outputs : List String} {m : Machine}
variable {lookahead : Nat} {nodes roots : List ν}
variable {s : Lowering ν} {run : Run}

section

variable (hStages : Compiles net outputs m lookahead nodes roots s run)
include hStages

theorem ofMachine_layout :
    WordLayout.ofMachine m = .ok run.bench.layout := by
  rw [hStages.scheduled.sound.layout_eq]
  exact (hStages.scheduled.sound.lowered trivial).accepted.layout

theorem streams :
    run.journal.Streams run.bench.layout := by
  rw [hStages.scheduled.sound.layout_eq]
  refine hStages.scheduled.invariant ?_ ?_
  · exact ⟨.nil, [], rfl, rfl⟩
  · intro j j' _ hBefore hStep
    exact hBefore.step hStep

/- Every instruction stays inside the memories of its machine. -/
theorem within
    {i : Instruction}
    (hMem : i ∈ run.schedule.instructions) :
    i.Within m := by
  have hConfines := hStages.confines
  rcases List.mem_iff_getElem?.mp hMem with ⟨n, hN⟩
  have hLength := (List.getElem?_eq_some_iff.mp hN).1
  rcases hConfines.covered n hLength with ⟨k, c, hGet, hFirst, hLast⟩
  rcases hConfines.confined k c hGet n hFirst hLast with
    ⟨i', hI, hConfined⟩
  cases hI.symm.trans hN
  exact hConfined.within (fun r hR => (hStages.lends hR).2)

/- The bytes of a schedule give back its instructions. -/
theorem decodeStream :
    run.bench.layout.decodeStream run.schedule.bytes =
      .ok run.schedule.instructions := by
  have hLayout := hStages.ofMachine_layout
  rcases hStages.streams.words with ⟨words, hWords, hBytes⟩
  have hCounted : ∀ i ∈ run.schedule.instructions, i.Counted :=
    fun i hMem =>
      WordLayout.counted_of_within hLayout (hStages.within hMem)
  have hStream : run.schedule.bytes = words.flatten := hBytes
  rw [hStream]
  exact WordLayout.decodeStream_of_mapM
    (WordLayout.sound_of_ofMachine hLayout) hCounted hWords

end

end Compiles

end Systolic
