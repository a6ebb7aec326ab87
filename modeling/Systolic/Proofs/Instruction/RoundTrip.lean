import Systolic.Proofs.Instruction.Slots

/-
  This file proves that the words of instructions can be read
  back. An instruction has a word exactly when each operand is
  in the range of its slot, and the first operand that is not is
  the one that the failure names.

  Key definitions include:
    * `WordLayout.InRange`
    * `Instruction.contents`

  Key theorems include:
    * `WordLayout.encode_eq`
    * `WordLayout.decodeWord_assemble`
    * `WordLayout.encode_roundTrip`
-/

namespace Systolic

------------------------------------------------------------
-- Ranges of Operands
------------------------------------------------------------

/- Every operand is a count. -/
def Instruction.Counted (i : Instruction) : Prop :=
  ∀ operand ∈ i.operands, operand.2 < Count.limit

instance (i : Instruction) : Decidable i.Counted := by
  unfold Instruction.Counted
  infer_instance

namespace WordLayout

/- An operand that its slot can hold. -/
def InRange
    (w : WordLayout)
    (operand : FieldName × Nat) : Prop :=
  if operand.1 = .size then
    1 ≤ operand.2 ∧ operand.2 ≤ 2 ^ w.slotWidth operand.1
  else
    operand.2 ≤ 2 ^ w.slotWidth operand.1 - 1

instance
    (w : WordLayout)
    (operand : FieldName × Nat) :
    Decidable (w.InRange operand) := by
  unfold InRange
  infer_instance

/- The bits of an operand: a size is written less one. -/
def stored (operand : FieldName × Nat) : Nat :=
  if operand.1 = .size then operand.2 - 1 else operand.2

/- The failure of an operand that its slot cannot hold. -/
def overflow
    (w : WordLayout)
    (operand : FieldName × Nat) : FieldOverflow :=
  { field := operand.1
    value := operand.2
    limit :=
      min Count.largest
        (if operand.1 = .size then 2 ^ w.slotWidth operand.1
          else 2 ^ w.slotWidth operand.1 - 1) }

/- A slot takes the operands in its range, and no other count. -/
theorem raw_slot
    (w : WordLayout)
    (name : FieldName)
    {value : Nat}
    (hCount : value < Count.limit) :
    (w.slot name).raw value =
      if w.InRange (name, value) then .ok (stored (name, value))
      else .error (w.overflow (name, value)) := by
  have hPow := Nat.two_pow_pos (w.slotWidth name)
  simp only [Count.limit] at hCount
  by_cases hSize : name = .size
  · subst hSize
    have hMisfit :
        value = 0 ∨ (w.slot .size).maxValue < value - 1 ↔
          ¬ w.InRange (.size, value) := by
      simp only [slot, Field.maxValue, InRange, Count.largest,
        Count.limit, if_true]
      omega
    have hLimit :
        Count.addSat (w.slot .size).maxValue 1 =
          min Count.largest (2 ^ w.slotWidth .size) := by
      simp only [slot, Field.maxValue, Count.addSat, Count.largest,
        Count.limit]
      omega
    have hName : (w.slot .size).name = .size := rfl
    simp only [Field.raw, hName, if_true, hMisfit, ite_not, hLimit,
      stored, overflow]
  · have hLimit :
        (w.slot name).maxValue =
          min Count.largest (2 ^ w.slotWidth name - 1) :=
      Nat.min_comm _ _
    have hMisfit :
        min Count.largest (2 ^ w.slotWidth name - 1) < value ↔
          ¬ w.InRange (name, value) := by
      simp only [InRange, Count.largest, Count.limit, hSize, if_false]
      omega
    have hName : (w.slot name).name = name := rfl
    simp only [Field.raw, hName, hSize, if_false, hLimit, hMisfit,
      ite_not, stored, overflow]

------------------------------------------------------------
-- Operands
------------------------------------------------------------

/- The sum of the bits of operands in their slots. -/
def payload
    (w : WordLayout)
    (operands : List (FieldName × Nat)) : Nat :=
  (operands.map (fun operand =>
    stored operand * 2 ^ w.slotOffset operand.1)).sum

/- Operands are put in their slots up to the first misfit. -/
theorem encodeOperands_eq
    (w : WordLayout)
    {fields : List Field}
    {operands : List (FieldName × Nat)}
    (hFields :
      ∀ operand ∈ operands,
        fields.find? (fun f => f.name = operand.1) =
          some (w.slot operand.1))
    (hCounts : ∀ operand ∈ operands, operand.2 < Count.limit) :
    encodeOperands fields operands =
      match operands.find? (fun operand => ¬ w.InRange operand) with
      | some misfit => .error (w.overflow misfit)
      | none => .ok (w.payload operands) := by
  induction operands with
  | nil => rfl
  | cons operand rest ih =>
      have hField := hFields operand List.mem_cons_self
      have hRaw :=
        w.raw_slot operand.1 (hCounts operand List.mem_cons_self)
      have hRest :=
        ih (fun o hMem => hFields o (List.mem_cons_of_mem _ hMem))
          (fun o hMem => hCounts o (List.mem_cons_of_mem _ hMem))
      rw [encodeOperands, hField]
      simp only [hRaw, hRest]
      by_cases hRange : w.InRange operand
      · simp only [hRange, if_true, not_true, decide_false,
          List.find?_cons]
        cases rest.find? (fun o => ¬ w.InRange o) with
        | none => simp [payload, slot]
        | some misfit => rfl
      · simp [hRange]

end WordLayout

------------------------------------------------------------
-- Words of Instructions
------------------------------------------------------------

/- What the word of an instruction holds. -/
def Instruction.contents (i : Instruction) : WordLayout.Contents :=
  let (slot0, slot1, slot2) :=
    match i with
    | noOp => (0, 0, 0)
    | matMul _ _ l a n => (l, a, n - 1)
    | dataMove _ l a n => (l, a, n - 1)
    | loadWeight _ l n => (l, 0, n - 1)
    | simd op _ _ _ r w => (op.bits, r, w)
  { slot0, slot1, slot2, flags := i.flags, opcode := i.opcode.bits }

namespace Instruction

theorem flags_lt (i : Instruction) :
    i.flags < 16 := by
  cases i with
  | noOp => decide
  | matMul accumulate zeroes =>
      cases accumulate <;> cases zeroes <;> simp [flags, flagBit]
  | dataMove direction =>
      cases direction <;> simp [flags, Direction.bits]
  | loadWeight zeroes =>
      cases zeroes <;> simp [flags, flagBit]
  | simd op read write accumulate =>
      cases read <;> cases write <;> cases accumulate <;>
        simp [flags, flagBit]

/- The fields of an instruction determine it. -/
theorem ofFields_operands
    {i : Instruction}
    {value : FieldName → Nat}
    (hValue : ∀ operand ∈ i.operands, value operand.1 = operand.2) :
    ofFields i.opcode i.flags value = .ok i := by
  cases i with
  | noOp => rfl
  | matMul accumulate zeroes l a n =>
      simp [operands] at hValue
      cases accumulate <;> cases zeroes <;>
        simp [ofFields, opcode,
          flags, flagBit, hasFlag, hValue]
  | dataMove direction l a n =>
      simp [operands] at hValue
      have hDirection :
          Direction.ofBits? direction.bits = some direction := by
        cases direction <;> rfl
      simp [ofFields, opcode,
        flags, hDirection, hValue]
  | loadWeight zeroes l n =>
      simp [operands] at hValue
      cases zeroes <;>
        simp [ofFields, opcode,
          flags, flagBit, hasFlag, hValue]
  | simd op read write accumulate r w =>
      simp [operands] at hValue
      have hOp : SimdOp.ofBits? op.bits = some op := by
        cases op <;> rfl
      cases read <;> cases write <;> cases accumulate <;>
        simp [ofFields, opcode,
          flags, flagBit, hasFlag, hValue, hOp]

end Instruction

namespace WordLayout

variable {w : WordLayout} {is : List Instruction}

/- Operands in range leave every slot of the word in bounds. -/
theorem fit_contents
    {i : Instruction}
    (hRange : ∀ operand ∈ i.operands, w.InRange operand) :
    i.contents.Fit w := by
  have h0 := Nat.two_pow_pos w.slot0
  have h1 := Nat.two_pow_pos w.slot1
  have h2 := Nat.two_pow_pos w.slot2
  have hOpcode : i.opcode.bits < 2 ^ opcodeBits := by
    cases i.opcode <;> decide
  refine ⟨?_, ?_, ?_, i.flags_lt, hOpcode⟩ <;>
    cases i <;>
    simp [Instruction.operands, InRange, slotWidth] at hRange <;>
    simp only [Instruction.contents] <;>
    omega

/- An instruction has a word up to its first misfit. -/
theorem encode_eq
    (hSound : w.Sound)
    {i : Instruction}
    (hCounted : i.Counted) :
    w.encode i =
      match i.operands.find? (fun operand => ¬ w.InRange operand) with
      | some misfit => .error (w.overflow misfit)
      | none => .ok (littleEndian w.wordBytes (w.assemble i.contents)) := by
  have hOperands :=
    encodeOperands_eq w
      (fun operand hMem => field?_operand hSound hMem) hCounted
  have hPayload :
      w.payload i.operands + i.flags * 2 ^ w.flagsOffset +
          i.opcode.bits * 2 ^ w.opcodeOffset =
        w.assemble i.contents := by
    cases i <;>
      simp [payload, Instruction.operands, stored, slotOffset,
        assemble, Instruction.contents, Nat.add_assoc]
  rw [encode, encodeWord, hOperands]
  cases i.operands.find? (fun operand => ¬ w.InRange operand) with
  | none => simp [Except.map, hPayload]
  | some misfit => rfl

------------------------------------------------------------
-- Reading Words Back
------------------------------------------------------------

section Decoding

variable {i : Instruction}

/- The slot of an operand holds its bits. -/
theorem assemble_operand
    (hSound : w.Sound)
    (hRange : ∀ operand ∈ i.operands, w.InRange operand)
    {operand : FieldName × Nat}
    (hMem : operand ∈ i.operands) :
    w.assemble i.contents / 2 ^ w.slotOffset operand.1 %
        2 ^ w.slotWidth operand.1 =
      stored operand := by
  have hFit := fit_contents hRange
  have h0 := assemble_slot0 hSound hFit
  have h1 := assemble_slot1 hSound hFit
  have h2 := assemble_slot2 hSound hFit
  cases i <;>
    simp only [Instruction.operands, List.mem_cons,
      List.not_mem_nil, or_false] at hMem <;>
    rcases hMem with rfl | rfl | rfl <;>
    first
    | exact h0
    | exact h1
    | exact h2

/- The operands are read back from the slots of the word. -/
theorem operandOf_assemble
    (hSound : w.Sound)
    (hCounted : i.Counted)
    (hRange : ∀ operand ∈ i.operands, w.InRange operand)
    {operand : FieldName × Nat}
    (hMem : operand ∈ i.operands) :
    w.operandOf i.opcode (w.assemble i.contents) operand.1 =
      operand.2 := by
  have hCount := hCounted operand hMem
  have hFits := hRange operand hMem
  have hExtract :
      (w.slot operand.1).extract (w.assemble i.contents) =
        stored operand := by
    have hStored : stored operand ≤ operand.2 := by
      unfold stored
      split <;> omega
    simp only [Field.extract, slot]
    rw [assemble_operand hSound hRange hMem, Nat.mod_eq_of_lt]
    omega
  have hName : (w.slot operand.1).name = operand.1 := rfl
  rw [operandOf, field?_operand hSound hMem]
  simp only [Field.operand, hExtract, hName, stored]
  unfold InRange at hFits
  split at hFits
  case isTrue hSize =>
    rw [if_pos hSize, if_pos hSize]
    omega
  case isFalse hSize =>
    rw [if_neg hSize, if_neg hSize]

/- The reserved fields of the word are clear. -/
theorem reserved_clear
    (hSound : w.Sound)
    (hRange : ∀ operand ∈ i.operands, w.InRange operand) :
    (w.fields i.opcode).any (fun f =>
      f.IsReserved ∧ f.extract (w.assemble i.contents) ≠ 0) = false := by
  have hFit := fit_contents hRange
  have h0 := assemble_slot0 hSound hFit
  have h1 := assemble_slot1 hSound hFit
  have h2 := assemble_slot2 hSound hFit
  have hPadding := assemble_padding hSound hFit
  have hClear :
      ∀ f ∈ w.fields i.opcode,
        f.IsReserved → Clear (w.assemble i.contents) f := by
    apply clear_place
    cases i <;>
      simp_all [sideBySide, Clear, Field.IsReserved,
        Instruction.opcode, Instruction.contents]
  simp only [List.any_eq_false, decide_eq_true_eq, not_and, not_not]
  intro f hMem hReserved
  rw [Field.extract, hClear f hMem hReserved, Nat.zero_mod]

/- A word of operands in range is the word of its instruction. -/
theorem decodeWord_assemble
    (hSound : w.Sound)
    (hCounted : i.Counted)
    (hRange : ∀ operand ∈ i.operands, w.InRange operand)
    (index : Nat) :
    w.decodeWord index (w.assemble i.contents) = .ok i := by
  have hFit := fit_contents hRange
  have hOpcode :
      Opcode.ofBits? i.contents.opcode = some i.opcode := by
    cases i <;> rfl
  have hFields : Instruction.ofFields i.opcode i.contents.flags
      (w.operandOf i.opcode (w.assemble i.contents)) = .ok i :=
    Instruction.ofFields_operands (fun operand hMem =>
      operandOf_assemble hSound hCounted hRange hMem)
  simp only [decodeWord, assemble_opcode hSound hFit, hOpcode,
    reserved_clear hSound hRange, assemble_flags hSound hFit, hFields,
    Bool.false_eq_true, if_false]

/- The bytes of an instruction have the length of a word. -/
theorem length_of_encode
    {bytes : List UInt8}
    (hEncode : w.encode i = .ok bytes) :
    bytes.length = w.wordBytes := by
  rw [encode] at hEncode
  cases hWord : w.encodeWord i with
  | error e => rw [hWord] at hEncode; cases hEncode
  | ok word =>
      rw [hWord] at hEncode
      cases hEncode
      exact length_littleEndian _ _

/- An instruction has a word exactly if its operands are in range. -/
theorem encode_ok_iff
    (hSound : w.Sound)
    (hCounted : i.Counted)
    {bytes : List UInt8} :
    w.encode i = .ok bytes ↔
      (∀ operand ∈ i.operands, w.InRange operand) ∧
        bytes = littleEndian w.wordBytes (w.assemble i.contents) := by
  rw [encode_eq hSound hCounted]
  cases hFind : i.operands.find? (fun o => ¬ w.InRange o) with
  | none =>
      have hRange : ∀ operand ∈ i.operands, w.InRange operand := by
        simpa using hFind
      simp only [Except.ok.injEq]
      exact ⟨fun h => ⟨hRange, h.symm⟩, fun h => h.2.symm⟩
  | some misfit =>
      have hMem := List.mem_of_find?_eq_some hFind
      have hMisfit := List.find?_some hFind
      simp only [reduceCtorEq, false_iff, not_and]
      intro hRange
      simp [hRange misfit hMem] at hMisfit

/- Decoding undoes encoding, whatever the index is. -/
theorem decode_of_encode
    (hSound : w.Sound)
    (hCounted : i.Counted)
    {bytes : List UInt8}
    (hEncode : w.encode i = .ok bytes)
    (index : Nat) :
    w.decode index bytes = .ok i := by
  rcases (encode_ok_iff hSound hCounted).mp hEncode with
    ⟨hRange, rfl⟩
  have hWord := assemble_lt hSound (fit_contents hRange)
  rw [decode, if_pos (length_littleEndian _ _),
    ofLittleEndian_littleEndian, Nat.mod_eq_of_lt hWord]
  exact decodeWord_assemble hSound hCounted hRange index

end Decoding

------------------------------------------------------------
-- Streams
------------------------------------------------------------

/- Words in a row are read back behind those that are done. -/
theorem decodeWords_flatten
    (hSound : w.Sound)
    {words : List (List UInt8)}
    (hWords :
      List.Forall₂ (fun i word => i.Counted ∧ w.encode i = .ok word)
        is words)
    (index : Nat)
    (done : List Instruction) :
    w.decodeWords words.length index done words.flatten =
      .ok (done.reverse ++ is) := by
  induction hWords generalizing index done with
  | nil => simp [decodeWords]
  | @cons i word is words hHead hRest ih =>
      have hLength := length_of_encode hHead.2
      have hTake : (word ++ words.flatten).take w.wordBytes = word := by
        rw [← hLength, List.take_left]
      have hDrop :
          (word ++ words.flatten).drop w.wordBytes = words.flatten := by
        rw [← hLength, List.drop_left]
      have hDecode := decode_of_encode hSound hHead.1 hHead.2 index
      simp only [List.length_cons, List.flatten_cons, decodeWords,
        hTake, hDrop, hDecode, ih]
      simp

/- The stream of the words of instructions gives them back. -/
theorem decodeStream_flatten
    (hSound : w.Sound)
    {words : List (List UInt8)}
    (hWords :
      List.Forall₂ (fun i word => i.Counted ∧ w.encode i = .ok word)
        is words) :
    w.decodeStream words.flatten = .ok is := by
  have hBytes : 0 < w.wordBytes := by
    have := hSound.wordBits_eq
    have := hSound.bytes_eq
    omega
  have hLength : words.flatten.length = words.length * w.wordBytes := by
    induction hWords with
    | nil => simp
    | cons hHead hRest ih =>
        rw [List.flatten_cons, List.length_append, ih,
          length_of_encode hHead.2, List.length_cons, Nat.succ_mul,
          Nat.add_comm]
  rw [decodeStream, hLength, Nat.mul_mod_left, if_pos rfl,
    Nat.mul_div_cancel _ hBytes, decodeWords_flatten hSound hWords]
  rfl

/- Instructions that all have words have a list of words. -/
theorem exists_words
    (hCounted : ∀ i ∈ is, i.Counted)
    (hEncode : ∀ i ∈ is, ∃ bytes, w.encode i = .ok bytes) :
    ∃ words,
      is.mapM w.encode = .ok words ∧
        List.Forall₂ (fun i word => i.Counted ∧ w.encode i = .ok word)
          is words := by
  induction is with
  | nil => exact ⟨[], rfl, .nil⟩
  | cons i is ih =>
      rcases hEncode i List.mem_cons_self with ⟨word, hWord⟩
      rcases ih (fun j hMem => hCounted j (List.mem_cons_of_mem _ hMem))
          (fun j hMem => hEncode j (List.mem_cons_of_mem _ hMem)) with
        ⟨words, hWords, hAll⟩
      refine ⟨word :: words, ?_, ?_⟩
      · rw [List.mapM_cons, hWord, hWords]
        rfl
      · exact .cons ⟨hCounted i List.mem_cons_self, hWord⟩ hAll

/-
  The words of a machine. An instruction has one exactly if each
  operand is in the range of its field, and else the first one
  that is not is named. A word fills its bytes, and words in a
  row give back their instructions.
-/
theorem encode_roundTrip
    {m : Machine}
    {w : WordLayout}
    (hLayout : ofMachine m = .ok w) :
    (∀ i : Instruction, i.Counted →
      (∀ operand ∈ i.operands,
        ∃ f, w.field? i.opcode operand.1 = some f ∧
          f.width = w.slotWidth operand.1) ∧
      ((∃ bytes, w.encode i = .ok bytes) ↔
        ∀ operand ∈ i.operands, w.InRange operand) ∧
      (∀ misfit,
        i.operands.find? (fun operand => ¬ w.InRange operand) =
            some misfit →
          w.encode i = .error (w.overflow misfit)) ∧
      ∀ bytes, w.encode i = .ok bytes →
        bytes.length = w.wordBytes ∧
          ∀ index, w.decode index bytes = .ok i) ∧
    ∀ is : List Instruction,
      (∀ i ∈ is, i.Counted) →
      (∀ i ∈ is, ∃ bytes, w.encode i = .ok bytes) →
      ∃ words,
        is.mapM w.encode = .ok words ∧
          w.decodeStream words.flatten = .ok is := by
  have hSound := sound_of_ofMachine hLayout
  constructor
  · intro i hCounted
    refine ⟨?_, ?_, ?_, ?_⟩
    · intro operand hMem
      exact ⟨_, field?_operand hSound hMem, rfl⟩
    · simp only [encode_ok_iff hSound hCounted, exists_and_left,
        exists_eq, and_true]
    · intro misfit hFind
      rw [encode_eq hSound hCounted, hFind]
    · intro bytes hEncode
      exact ⟨length_of_encode hEncode,
        decode_of_encode hSound hCounted hEncode⟩
  · intro is hCounted hEncode
    rcases exists_words hCounted hEncode with ⟨words, hWords, hAll⟩
    exact ⟨words, hWords, decodeStream_flatten hSound hAll⟩

/- Two instructions of the standard machine at the ends of their ranges. -/
theorem encode_roundTrip_standard :
    ∃ words,
      [ Instruction.dataMove .dram1ToLocal 2047 (2 ^ 20 - 1) 2048,
        Instruction.loadWeight true 0 1 ].mapM
          (WordLayout.encode
            { slot0 := 11, slot1 := 20, slot2 := 11, wordBits := 56 }) =
          .ok words ∧
        WordLayout.decodeStream
            { slot0 := 11, slot1 := 20, slot2 := 11, wordBits := 56 }
            words.flatten =
          .ok [ .dataMove .dram1ToLocal 2047 (2 ^ 20 - 1) 2048,
            .loadWeight true 0 1 ] := by
  have hLayout :
      ofMachine Machine.standard =
        .ok { slot0 := 11, slot1 := 20, slot2 := 11, wordBits := 56 } := by
    decide
  have hTrip := encode_roundTrip hLayout
  refine hTrip.2 _ (by decide) ?_
  intro i hMem
  simp only [List.mem_cons, List.not_mem_nil, or_false] at hMem
  rcases hMem with rfl | rfl
  · exact (hTrip.1 _ (by decide)).2.1.mpr (by decide)
  · exact (hTrip.1 _ (by decide)).2.1.mpr (by decide)

end WordLayout

end Systolic
