import Mathlib.Data.List.Basic
import Mathlib.Data.Nat.Digits.Defs
import Systolic.Graph.Basic
import Systolic.Text.Blank
import Systolic.Text.Lines
import Systolic.Text.Numeral

/-
  This file proves that numerals and names are words without
  blanks, that a memory address can be read back, and that lines
  which end in a line feed each are the lines of their text.

  Key definitions include:
    * `IsWord`
    * `IsLine`
    * `ofHexDigits`

  Key theorems include:
    * `isWord_of_isValueName`
    * `addressText_injective`
    * `decimal_injective`
    * `lines_unlines`
-/

namespace Systolic

variable {c : Char}

------------------------------------------------------------
-- Words
------------------------------------------------------------

/- There is no blank among some characters. -/
def IsWord (cs : List Char) : Prop :=
  ∀ c ∈ cs, isBlank c = false

-- The search for an instance could also go through all characters,
-- which are finitely many but far too many.
instance (cs : List Char) : Decidable (IsWord cs) :=
  List.decidableBAll _ cs

theorem isWord_append
    {cs ds : List Char} :
    IsWord (cs ++ ds) ↔ IsWord cs ∧ IsWord ds :=
  List.forall_mem_append

/-
  Letters, digits and underscores come after the space and before
  the first blank that is no ASCII character.
-/
theorem toNat_of_isNameChar
    (hName : isNameChar c = true) :
    0x20 < c.toNat ∧ c.toNat < 0x80 := by
  rcases Bool.or_eq_true_iff.mp hName with hAlphanum | hUnderscore
  · change (decide (_ ∧ _) || _ && _ || _ && _) = true at hAlphanum
    simp only [Bool.or_eq_true, decide_eq_true_eq, Bool.and_eq_true,
      UInt32.le_iff_toNat_le, ge_iff_le] at hAlphanum
    change ((0x41 ≤ c.toNat ∧ c.toNat ≤ 0x5a) ∨
      (0x61 ≤ c.toNat ∧ c.toNat ≤ 0x7a)) ∨
      (0x30 ≤ c.toNat ∧ c.toNat ≤ 0x39) at hAlphanum
    omega
  · rw [beq_iff_eq.mp hUnderscore]
    decide

theorem isBlank_of_isNameChar
    (hName : isNameChar c = true) :
    isBlank c = false := by
  have hRange := toNat_of_isNameChar hName
  simp only [isBlank, blankRanges, List.any_cons, List.any_nil,
    Bool.or_false, Bool.or_eq_false_iff, Bool.and_eq_false_iff,
    decide_eq_false_iff_not]
  omega

theorem isWord_of_isValueName
    {name : String}
    (hName : IsValueName name) :
    IsWord name.toList := by
  intro c hMem
  exact isBlank_of_isNameChar (List.all_eq_true.mp hName.2 c hMem)

------------------------------------------------------------
-- Numerals
------------------------------------------------------------

theorem isBlank_digitChar (d : Nat) :
    isBlank d.digitChar = false := by
  by_cases hDigit : d < 16
  · have hDigits : ∀ d < 16, isBlank d.digitChar = false := by decide
    exact hDigits d hDigit
  · rw [Nat.digitChar_eq_star.mpr (Nat.le_of_not_lt hDigit)]
    decide

/- A numeral is made of digits. -/
theorem exists_digitChar_of_mem_toDigits
    {base n : Nat}
    (hBase : 1 < base)
    (hMem : c ∈ Nat.toDigits base n) :
    ∃ d, c = Nat.digitChar d := by
  induction n using Nat.strongRecOn with
  | ind n ih =>
      rw [Nat.toDigits_eq_if hBase] at hMem
      split at hMem
      case isTrue => exact ⟨n, List.mem_singleton.mp hMem⟩
      case isFalse hLarge =>
        rcases List.mem_append.mp hMem with hFront | hLast
        · exact ih (n / base) (Nat.div_lt_self (by omega) hBase) hFront
        · exact ⟨n % base, List.mem_singleton.mp hLast⟩

theorem isWord_toDigits
    {base : Nat}
    (hBase : 1 < base)
    (n : Nat) :
    IsWord (Nat.toDigits base n) := by
  intro c hMem
  rcases exists_digitChar_of_mem_toDigits hBase hMem with ⟨d, rfl⟩
  exact isBlank_digitChar d

theorem isWord_toString (n : Nat) :
    IsWord (toString n).toList := by
  rw [Nat.toString_eq_ofList_toDigits, String.toList_ofList]
  exact isWord_toDigits (by decide) n

theorem isWord_hexDigits
    (width n : Nat) :
    IsWord (hexDigits width n) := by
  rw [hexDigits, padLeft, isWord_append]
  refine ⟨?_, isWord_toDigits (by decide) n⟩
  intro c hMem
  rw [List.eq_of_mem_replicate hMem]
  decide

theorem isWord_addressText (n : Nat) :
    IsWord (addressText n).toList := by
  rw [addressText, String.toList_append, isWord_append]
  refine ⟨by decide, ?_⟩
  rw [String.toList_ofList]
  exact isWord_hexDigits 4 n

/- The value of a digit in base sixteen. -/
def hexValue (c : Char) : Nat :=
  if c.isDigit then c.toNat - '0'.toNat else c.toNat - 'a'.toNat + 10

/- The number with given digits in base sixteen. -/
def ofHexDigits (cs : List Char) : Nat :=
  cs.foldl (fun n c => 16 * n + hexValue c) 0

theorem hexValue_digitChar :
    ∀ d < 16, hexValue d.digitChar = d := by
  decide

theorem ofHexDigits_concat
    (cs : List Char)
    (c : Char) :
    ofHexDigits (cs ++ [c]) = 16 * ofHexDigits cs + hexValue c := by
  simp [ofHexDigits]

theorem ofHexDigits_toDigits (n : Nat) :
    ofHexDigits (Nat.toDigits 16 n) = n := by
  induction n using Nat.strongRecOn with
  | ind n ih =>
      rw [Nat.toDigits_eq_if (by decide)]
      split
      case isTrue hSmall =>
        simp [ofHexDigits, hexValue_digitChar n hSmall]
      case isFalse hLarge =>
        rw [ofHexDigits_concat,
          ih (n / 16) (Nat.div_lt_self (by omega) (by decide)),
          hexValue_digitChar _ (Nat.mod_lt n (by decide))]
        omega

/- Zeros in front do not change a number. -/
theorem ofHexDigits_hexDigits
    (width n : Nat) :
    ofHexDigits (hexDigits width n) = n := by
  have hZeros :
      ∀ k, (List.replicate k '0').foldl
        (fun n c => 16 * n + hexValue c) 0 = 0 := by
    intro k
    induction k with
    | zero => rfl
    | succ k ih => exact ih
  rw [hexDigits, padLeft, ofHexDigits, List.foldl_append, hZeros]
  exact ofHexDigits_toDigits n

/- An address is known from its text. -/
theorem addressText_injective :
    Function.Injective addressText := by
  intro n k hSame
  have hDigits : hexDigits 4 n = hexDigits 4 k := by
    have hLists := congrArg String.toList hSame
    simpa [addressText] using hLists
  calc
    n = ofHexDigits (hexDigits 4 n) := (ofHexDigits_hexDigits 4 n).symm
    _ = ofHexDigits (hexDigits 4 k) := by rw [hDigits]
    _ = k := ofHexDigits_hexDigits 4 k

/- A decimal number is known from its text. -/
theorem decimal_injective :
    Function.Injective Nat.repr := by
  intro n k hSame
  rw [Nat.repr_eq_ofList_toDigits, Nat.repr_eq_ofList_toDigits,
    String.ofList_inj] at hSame
  calc
    n = Nat.ofDigitChars 10 (Nat.toDigits 10 n) 0 :=
      Nat.ofDigitChars_ten_toDigits.symm
    _ = Nat.ofDigitChars 10 (Nat.toDigits 10 k) 0 := by rw [hSame]
    _ = k := Nat.ofDigitChars_ten_toDigits

------------------------------------------------------------
-- Lines
------------------------------------------------------------

/- Some characters are on one line. -/
def IsLine (cs : List Char) : Prop :=
  '\n' ∉ cs ∧ '\r' ∉ cs

instance (cs : List Char) : Decidable (IsLine cs) := by
  unfold IsLine
  infer_instance

theorem IsWord.isLine
    {cs : List Char}
    (hWord : IsWord cs) :
    IsLine cs := by
  constructor
  · intro hMem
    cases hWord '\n' hMem
  · intro hMem
    cases hWord '\r' hMem

theorem isLine_append
    {cs ds : List Char} :
    IsLine (cs ++ ds) ↔ IsLine cs ∧ IsLine ds := by
  simp only [IsLine, List.mem_append, not_or]
  tauto

/- Words with a space between them are on one line. -/
theorem isLine_intercalate
    {ws : List (List Char)}
    (hWords : ∀ w ∈ ws, IsWord w) :
    IsLine ([' '].intercalate ws) := by
  induction ws with
  | nil => decide
  | cons w ws ih =>
      rcases List.forall_mem_cons.mp hWords with ⟨hFirst, hRest⟩
      cases ws with
      | nil =>
          rw [List.intercalate_singleton]
          exact hFirst.isLine
      | cons =>
          rw [List.intercalate_cons_cons, isLine_append, isLine_append]
          exact ⟨⟨hFirst.isLine, by decide⟩, ih hRest⟩

/- A number in a column is made of spaces and digits. -/
theorem mem_columnText
    {width n : Nat}
    (hMem : c ∈ (columnText width n).toList) :
    c = ' ' ∨ ∃ d, c = Nat.digitChar d := by
  rw [columnText, String.toList_ofList, padLeft] at hMem
  rcases List.mem_append.mp hMem with hFill | hDigit
  · exact .inl (List.eq_of_mem_replicate hFill)
  · exact .inr (exists_digitChar_of_mem_toDigits (by decide) hDigit)

theorem columnText_ne_nil
    (width n : Nat) :
    (columnText width n).toList ≠ [] := by
  rw [columnText, String.toList_ofList, padLeft]
  exact List.append_ne_nil_of_right_ne_nil _ Nat.toDigits_ne_nil

theorem isLine_columnText
    (width n : Nat) :
    IsLine (columnText width n).toList := by
  rw [columnText, String.toList_ofList, padLeft, isLine_append]
  refine ⟨⟨?_, ?_⟩, (isWord_toDigits (by decide) n).isLine⟩
  · intro hMem
    cases List.eq_of_mem_replicate hMem
  · intro hMem
    cases List.eq_of_mem_replicate hMem

/- A text starts with the line before its first line feed. -/
theorem lines_append
    {cs ds : List Char}
    (hLine : IsLine cs) :
    lines (cs ++ '\n' :: ds) = cs :: lines ds := by
  induction cs with
  | nil => rfl
  | cons c cs ih =>
      rcases hLine with ⟨hFeed, hReturn⟩
      rw [List.mem_cons, not_or] at hFeed hReturn
      rw [List.cons_append, lines, ih ⟨hFeed.2, hReturn.2⟩]
      · rintro ds rfl
        exact absurd rfl hReturn.1
      · rintro rfl
        exact absurd rfl hFeed.1

/- The lines of a text that is made of lines. -/
theorem lines_unlines
    {ls : List String}
    (hLines : ∀ l ∈ ls, IsLine l.toList) :
    lines (unlines ls).toList = ls.map String.toList := by
  rw [unlines, String.toList_join]
  induction ls with
  | nil => rfl
  | cons l ls ih =>
      rcases List.forall_mem_cons.mp hLines with ⟨hFirst, hRest⟩
      rw [List.map_cons, List.flatMap_cons, String.toList_append,
        List.append_assoc, List.map_cons, ← ih hRest]
      exact lines_append hFirst

end Systolic
