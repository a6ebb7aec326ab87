import Mathlib.Data.List.Nodup
import Systolic.Instruction.Basic
import Systolic.Proofs.Text.Words

/-
  This file proves that an instruction is known from its line in a
  listing. The line is a list of words, and each of them shows
  some of the parts of the instruction.

  Key definitions include:
    * `Instruction.title`
    * `Instruction.settings`
    * `Instruction.form`

  Key theorems include:
    * `Instruction.toList_text`
    * `Instruction.form_eq_of_title`
    * `Instruction.text_injective`
-/

namespace Systolic

namespace Instruction

variable {i j : Instruction}

------------------------------------------------------------
-- Titles
------------------------------------------------------------

/- The name of an instruction with its marks. -/
def title : Instruction → String
| noOp => "NoOp"
| matMul accumulate zeroes _ _ _ =>
    "MatMul" ++ mark accumulate ".acc" ++ mark zeroes ".zeroes"
| dataMove direction _ _ _ => "DataMove." ++ direction.mnemonic
| loadWeight zeroes _ _ => "LoadWeight" ++ mark zeroes ".zeroes"
| simd op read write accumulate _ _ =>
    "Simd." ++ op.mnemonic ++
      mark read ".r" ++ mark write ".w" ++ mark accumulate ".acc"

/- An instruction without its operands. -/
def form : Instruction → Instruction
| noOp => noOp
| matMul accumulate zeroes _ _ _ => matMul accumulate zeroes 0 0 0
| dataMove direction _ _ _ => dataMove direction 0 0 0
| loadWeight zeroes _ _ => loadWeight zeroes 0 0
| simd op read write accumulate _ _ => simd op read write accumulate 0 0

/- Every instruction without operands. -/
def forms : List Instruction :=
  let flags := [false, true]
  [noOp] ++
    flags.flatMap (fun a => flags.map (fun z => matMul a z 0 0 0)) ++
    Direction.all.map (fun d => dataMove d 0 0 0) ++
    flags.map (fun z => loadWeight z 0 0) ++
    SimdOp.all.flatMap (fun op =>
      flags.flatMap (fun r =>
        flags.flatMap (fun w => flags.map (fun a => simd op r w a 0 0))))

theorem form_mem_forms (i : Instruction) :
    i.form ∈ forms := by
  have hFlag : ∀ set : Bool, set ∈ [false, true] := by decide
  have hDirection : ∀ d : Direction, d ∈ Direction.all := by
    intro d
    cases d <;> decide
  have hOp : ∀ op : SimdOp, op ∈ SimdOp.all := by
    intro op
    cases op <;> decide
  simp only [forms, List.mem_append, List.mem_flatMap, List.mem_map]
  cases i with
  | noOp => exact .inl (.inl (.inl (.inl List.mem_cons_self)))
  | matMul a z =>
      exact .inl (.inl (.inl (.inr ⟨a, hFlag a, z, hFlag z, rfl⟩)))
  | dataMove d => exact .inl (.inl (.inr ⟨d, hDirection d, rfl⟩))
  | loadWeight z => exact .inl (.inr ⟨z, hFlag z, rfl⟩)
  | simd op r w a =>
      exact .inr ⟨op, hOp op, r, hFlag r, w, hFlag w, a, hFlag a, rfl⟩

theorem title_form (i : Instruction) :
    i.form.title = i.title := by
  cases i <;> rfl

theorem isWord_title (i : Instruction) :
    IsWord i.title.toList := by
  have hTitles : ∀ f ∈ forms, IsWord f.title.toList := by
    decide +kernel
  rw [← title_form]
  exact hTitles i.form (form_mem_forms i)

/- No two instructions share a title, but for their operands. -/
theorem form_eq_of_title
    (hTitle : i.title = j.title) :
    i.form = j.form := by
  have hTitles : (forms.map title).Nodup := by decide +kernel
  refine List.inj_on_of_nodup_map hTitles (form_mem_forms i)
    (form_mem_forms j) ?_
  rw [title_form, title_form, hTitle]

------------------------------------------------------------
-- Words of a Line
------------------------------------------------------------

/- The operands of an instruction as it shows them. -/
def settings : Instruction → List String
| noOp => []
| matMul _ _ l a n =>
    ["local=" ++ addressText l, "acc=" ++ addressText a,
      "size=" ++ toString n]
| dataMove _ l a n =>
    ["local=" ++ addressText l, "address=" ++ addressText a,
      "size=" ++ toString n]
| loadWeight _ l n =>
    ["local=" ++ addressText l, "size=" ++ toString n]
| simd _ _ _ _ r w =>
    ["read=" ++ addressText r, "write=" ++ addressText w]

/- All words of the line of an instruction. -/
def words (i : Instruction) : List (List Char) :=
  (i.title :: i.settings).map String.toList

/- A line has a space between its words. -/
theorem toList_text (i : Instruction) :
    i.text.toList = [' '].intercalate i.words := by
  cases i with
  | noOp => rfl
  | matMul accumulate zeroes l a n =>
      change ((matMul accumulate zeroes l a n).title ++
        " local=" ++ addressText l ++ " acc=" ++ addressText a ++
        " size=" ++ toString n).toList = _
      simp [words, settings]
  | dataMove direction l a n =>
      change ((dataMove direction l a n).title ++
        " local=" ++ addressText l ++ " address=" ++ addressText a ++
        " size=" ++ toString n).toList = _
      simp [words, settings]
  | loadWeight zeroes l n =>
      change ((loadWeight zeroes l n).title ++
        " local=" ++ addressText l ++ " size=" ++ toString n).toList = _
      simp [words, settings]
  | simd op read write accumulate r w =>
      change ((simd op read write accumulate r w).title ++
        " read=" ++ addressText r ++ " write=" ++ addressText w).toList = _
      simp [words, settings]

theorem isWord_of_mem_words
    {w : List Char}
    (hMem : w ∈ i.words) :
    IsWord w := by
  have hSettings : ∀ s ∈ i.settings, IsWord s.toList := by
    cases i <;>
      simp only [settings, List.forall_mem_cons, String.toList_append,
        isWord_append, isWord_addressText, isWord_toString, and_true] <;>
      decide
  rcases List.mem_map.mp hMem with ⟨s, hS, rfl⟩
  rcases List.mem_cons.mp hS with rfl | hSetting
  · exact isWord_title i
  · exact hSettings s hSetting

theorem isLine_text (i : Instruction) :
    IsLine i.text.toList := by
  rw [toList_text]
  exact isLine_intercalate (fun w hMem => isWord_of_mem_words hMem)

/- A line shows its words. -/
theorem words_eq_of_text
    (hText : i.text = j.text) :
    i.words = j.words := by
  have hSplit : ∀ k : Instruction, k.text.toList.splitOn ' ' = k.words := by
    intro k
    rw [toList_text]
    refine List.splitOn_intercalate ' ' ?_ (by simp [words])
    intro w hMem hBlank
    cases isWord_of_mem_words hMem ' ' hBlank
  rw [← hSplit i, hText, hSplit j]

------------------------------------------------------------
-- Injectivity
------------------------------------------------------------

/- The settings show the operands. -/
theorem eq_of_form_of_settings
    (hForm : i.form = j.form)
    (hSettings : i.settings = j.settings) :
    i = j := by
  cases i <;> cases j <;>
    simp_all [form, settings, addressText_injective.eq_iff,
      decimal_injective.eq_iff]

/- An instruction is known from its line. -/
theorem text_injective :
    Function.Injective text := by
  intro i j hText
  have hWords := words_eq_of_text hText
  have hParts :=
    List.map_injective_iff.mpr (fun _ _ => String.toList_injective) hWords
  rcases List.cons.inj hParts with ⟨hTitle, hSettings⟩
  exact eq_of_form_of_settings (form_eq_of_title hTitle) hSettings

end Instruction

end Systolic
