import Systolic.Proofs.Graph.Grammar

/-
  This file proves that blanks at the end of a line do not change
  what is read from it, nor the fault that is found in it. So it
  does not matter whether a carriage return at the end of a text
  belongs to the end of its last line.

  Key definitions include:
    * `SparesBlanks`

  Key theorems include:
    * `readDefinition_append_blanks`
    * `lines_append_newline`
    * `readLines_append_newline`
-/

namespace Systolic

------------------------------------------------------------
-- Readers
------------------------------------------------------------

variable {α : Type} {cs w : List Char}

/- A reader takes no blanks from the end of a line. -/
def SparesBlanks (read : Reader α) : Prop :=
  ∀ cs w, IsBlanks w →
    read (cs ++ w) = (read cs).map (fun p => (p.1, p.2 ++ w))

theorem skipBlanks_append_blanks
    (hBlanks : IsBlanks w)
    (cs : List Char) :
    (skipBlanks cs = [] ∧ skipBlanks (cs ++ w) = []) ∨
      ∃ c rest, skipBlanks cs = c :: rest ∧
        skipBlanks (cs ++ w) = c :: (rest ++ w) := by
  have hNone : w.dropWhile isBlank = [] :=
    List.dropWhile_eq_nil_iff.mpr (List.all_eq_true.mp hBlanks)
  unfold skipBlanks
  rw [List.dropWhile_append, hNone]
  cases cs.dropWhile isBlank with
  | nil => exact .inl ⟨rfl, rfl⟩
  | cons c rest => exact .inr ⟨c, rest, rfl, rfl⟩

/- Blanks are not in a class of characters of names. -/
theorem takeWhile_append_blanks
    {p : Char → Bool}
    (hNames : ∀ c, p c = true → isNameChar c = true)
    (hBlanks : IsBlanks w)
    (cs : List Char) :
    (cs ++ w).takeWhile p = cs.takeWhile p ∧
      (cs ++ w).dropWhile p = cs.dropWhile p ++ w := by
  have hAll : ∀ c ∈ cs.takeWhile p, p c = true :=
    List.all_eq_true.mp List.all_takeWhile
  have hEnds : Ends p (cs.dropWhile p ++ w) := by
    cases hRest : cs.dropWhile p with
    | nil => exact ends_of_isBlanks hNames hBlanks
    | cons c rest =>
        have hFirst := ends_dropWhile p cs
        rw [hRest] at hFirst
        exact hFirst
  have hSplit :
      cs ++ w = cs.takeWhile p ++ (cs.dropWhile p ++ w) := by
    rw [← List.append_assoc, List.takeWhile_append_dropWhile]
  rw [hSplit]
  exact ⟨takeWhile_append_of_ends hAll hEnds,
    dropWhile_append_of_ends hAll hEnds⟩

theorem readChar?_append_blanks
    (c : Char)
    (hBlanks : IsBlanks w) :
    readChar? c (cs ++ w) = (readChar? c cs).map (· ++ w) := by
  unfold readChar?
  rcases skipBlanks_append_blanks hBlanks cs with
    ⟨hSkip, hSkip'⟩ | ⟨d, rest, hSkip, hSkip'⟩
  · rw [hSkip, hSkip']
    rfl
  · rw [hSkip, hSkip']
    dsimp only
    split <;> rfl

theorem sparesBlanks_readChar (c : Char) : SparesBlanks (readChar c) := by
  intro cs w hBlanks
  unfold readChar
  rw [readChar?_append_blanks c hBlanks]
  cases readChar? c cs with
  | some rest => rfl
  | none =>
      rcases skipBlanks_append_blanks hBlanks cs with
        ⟨hSkip, hSkip'⟩ | ⟨d, rest, hSkip, hSkip'⟩
      all_goals
        rw [hSkip, hSkip']
        rfl

theorem sparesBlanks_readName : SparesBlanks readName := by
  intro cs w hBlanks
  unfold readName
  rcases skipBlanks_append_blanks hBlanks cs with
    ⟨hSkip, hSkip'⟩ | ⟨c, rest, hSkip, hSkip'⟩
  · rw [hSkip, hSkip']
    rfl
  · rcases takeWhile_append_blanks (fun _ hName => hName) hBlanks
      (c :: rest) with ⟨hTake, hDrop⟩
    rw [hSkip, hSkip', ← List.cons_append]
    dsimp only
    rw [hTake, hDrop]
    rw [List.cons_append, List.head?_cons, List.head?_cons, Option.any_some]
    cases isNameStart c <;> rfl

theorem sparesBlanks_readValue : SparesBlanks readValue := by
  intro cs w hBlanks
  unfold readValue
  rw [sparesBlanks_readChar '%' cs w hBlanks]
  cases readChar '%' cs with
  | error e => rfl
  | ok found => exact sparesBlanks_readName found.2 w hBlanks

theorem sparesBlanks_readDimension : SparesBlanks readDimension := by
  have hNumber : SparesBlanks readNumber := by
    intro cs w hBlanks
    unfold readNumber
    rcases skipBlanks_append_blanks hBlanks cs with
      ⟨hSkip, hSkip'⟩ | ⟨c, rest, hSkip, hSkip'⟩
    · rw [hSkip, hSkip']
      rfl
    · rcases takeWhile_append_blanks (p := Char.isDigit)
        (fun _ => isNameChar_of_isDigit) hBlanks (c :: rest) with
        ⟨hTake, hDrop⟩
      rw [hSkip, hSkip', ← List.cons_append]
      dsimp only
      rw [hTake, hDrop]
      split
      case isTrue => rfl
      case isFalse => split <;> rfl
  intro cs w hBlanks
  unfold readDimension
  rw [hNumber cs w hBlanks]
  cases readNumber cs with
  | error e => rfl
  | ok found =>
      dsimp only [Except.map]
      split <;> rfl

/-
  The rounds that are left do not matter, as long as there are
  more of them than characters.
-/
theorem Separates.readItems_append_blanks
    {item : Reader α}
    {Item : α → List (List Char) → Prop}
    {p : Char → Bool}
    {more : Reader Bool}
    {close : List (List Char)}
    {rounds rounds' : Nat}
    (hList : Separates item Item p more close)
    (hItem : SparesBlanks item)
    (hMore : SparesBlanks more)
    (hBlanks : IsBlanks w)
    (hRounds : cs.length < rounds)
    (hRounds' : cs.length < rounds') :
    readItems item more rounds' (cs ++ w) =
      (readItems item more rounds cs).map (fun p => (p.1, p.2 ++ w)) := by
  induction rounds generalizing rounds' cs with
  | zero => omega
  | succ rounds ih =>
      cases rounds' with
      | zero => omega
      | succ rounds' =>
          unfold readItems
          rw [hItem cs w hBlanks]
          cases hFirst : item cs with
          | error e => rfl
          | ok found =>
              rcases found with ⟨a, rest⟩
              rcases hList.item_iff.mp hFirst with ⟨_, -, hBegins, -⟩
              have hShorter := hBegins.length_le
              dsimp only [Except.map]
              rw [hMore rest w hBlanks]
              cases hNext : more rest with
              | error e => rfl
              | ok found =>
                  rcases found with ⟨goesOn, rest'⟩
                  dsimp only [Except.map]
                  cases goesOn with
                  | false => rfl
                  | true =>
                      have hLess :=
                        (hList.more_iff.mp hNext).length_add_le
                      rw [List.length_singleton] at hLess
                      dsimp only
                      rw [ih (by omega) (by omega)]
                      cases readItems item more rounds rest' <;> rfl

theorem sparesBlanks_moreDimensions : SparesBlanks moreDimensions := by
  intro cs w hBlanks
  unfold moreDimensions
  rw [readChar?_append_blanks ']' hBlanks]
  cases readChar? ']' cs with
  | some rest => rfl
  | none =>
      dsimp only [Option.map_none]
      rw [sparesBlanks_readChar ',' cs w hBlanks]
      cases readChar ',' cs <;> rfl

theorem sparesBlanks_moreOperands : SparesBlanks moreOperands := by
  intro cs w hBlanks
  unfold moreOperands
  rw [readChar?_append_blanks ',' hBlanks]
  cases readChar? ',' cs <;> rfl

theorem sparesBlanks_readShape : SparesBlanks readShape := by
  intro cs w hBlanks
  unfold readShape
  rw [sparesBlanks_readChar '[' cs w hBlanks]
  cases readChar '[' cs with
  | error e => rfl
  | ok found =>
      dsimp only [Except.map]
      rw [readChar?_append_blanks ']' hBlanks]
      cases readChar? ']' found.2 with
      | some rest => rfl
      | none =>
          refine separates_dimensions.readItems_append_blanks
            sparesBlanks_readDimension sparesBlanks_moreDimensions hBlanks
            (Nat.lt_succ_self _) ?_
          rw [List.length_append]
          omega

theorem sparesBlanks_readOperands : SparesBlanks readOperands := by
  intro cs w hBlanks
  refine separates_operands.readItems_append_blanks sparesBlanks_readValue
    sparesBlanks_moreOperands hBlanks (Nat.lt_succ_self _) ?_
  rw [List.length_append]
  omega

theorem sparesBlanks_readArguments
    (name operation : String) :
    SparesBlanks (readArguments name operation) := by
  have hInto :
      ∀ {α : Type} {read : Reader α} (build : α → Definition),
        SparesBlanks read → SparesBlanks (readInto read build) := by
    intro α read build hRead cs w hBlanks
    unfold readInto
    rw [hRead cs w hBlanks]
    cases read cs <;> rfl
  have hShaped : ∀ op, SparesBlanks (readShaped name op) :=
    fun _ => hInto _ sparesBlanks_readShape
  have hApplied : ∀ op, SparesBlanks (readApplied name op) :=
    fun _ => hInto _ sparesBlanks_readOperands
  unfold readArguments
  split
  · exact hShaped .input
  split
  · exact hShaped .constant
  split
  · exact hApplied .matMul
  split
  · exact hApplied .add
  split
  · exact hApplied .relu
  · exact fun _ _ _ => rfl

------------------------------------------------------------
-- Definitions
------------------------------------------------------------

theorem trimBlanks_append_blanks
    (hBlanks : IsBlanks w)
    (cs : List Char) :
    trimBlanks (cs ++ w) = trimBlanks cs := by
  unfold trimBlanks
  rcases skipBlanks_append_blanks hBlanks cs with
    ⟨hSkip, hSkip'⟩ | ⟨c, rest, hSkip, hSkip'⟩
  · rw [hSkip, hSkip']
  · rw [hSkip, hSkip', ← List.cons_append, List.reverse_append]
    unfold skipBlanks
    rw [List.dropWhile_append_of_pos]
    intro d hD
    exact List.all_eq_true.mp hBlanks d (List.mem_reverse.mp hD)

theorem readBody_append_blanks
    (name : String)
    (hBlanks : IsBlanks w) :
    readBody name (cs ++ w) = readBody name cs := by
  unfold readBody
  rw [sparesBlanks_readChar '=' cs w hBlanks]
  cases readChar '=' cs with
  | error e => rfl
  | ok found =>
      dsimp only [Except.map]
      rw [sparesBlanks_readName found.2 w hBlanks]
      cases readName found.2 with
      | error e => rfl
      | ok found =>
          rcases found with ⟨operation, rest⟩
          dsimp only [Except.map]
          rw [sparesBlanks_readArguments name operation rest w hBlanks]
          cases readArguments name operation rest with
          | error e => rfl
          | ok found =>
              rcases found with ⟨d, rest⟩
              dsimp only [Except.map]
              rw [trimBlanks_append_blanks hBlanks]
              rcases skipBlanks_append_blanks hBlanks rest with
                ⟨hSkip, hSkip'⟩ | ⟨c, rest', hSkip, hSkip'⟩
              · rw [hSkip, hSkip']
              · rw [hSkip, hSkip']
                rfl

/- Blanks at the end of a line change neither result nor fault. -/
theorem readDefinition_append_blanks
    (above : List Entry)
    (hBlanks : IsBlanks w) :
    readDefinition above (cs ++ w) = readDefinition above cs := by
  unfold readDefinition
  rw [sparesBlanks_readValue cs w hBlanks]
  cases readValue cs with
  | error e => rfl
  | ok found =>
      dsimp only [Except.map]
      rw [readBody_append_blanks found.1 hBlanks]

/- A line is read like one that ends in a carriage return. -/
theorem readLines_cons_return
    (line : Nat)
    (above : List Entry)
    (l : List Char)
    (ls : List (List Char)) :
    readLines line above ((l ++ ['\r']) :: ls) =
      readLines line above (l :: ls) := by
  have hReturn : IsBlanks ['\r'] := by decide
  have hComment :
      withoutComment (l ++ ['\r']) = withoutComment l ∨
        withoutComment (l ++ ['\r']) = withoutComment l ++ ['\r'] := by
    unfold withoutComment
    rw [List.takeWhile_append]
    split
    case isFalse => exact .inl rfl
    case isTrue hAll =>
      right
      have hSame : l.takeWhile (fun c => c ≠ ';') = l :=
        (List.takeWhile_sublist _).eq_of_length hAll
      rw [hSame]
      rfl
  rcases hComment with hSame | hSame
  · unfold readLines
    rw [hSame]
  · unfold readLines
    rw [hSame]
    dsimp only
    rw [readDefinition_append_blanks above hReturn]
    rcases skipBlanks_append_blanks hReturn (withoutComment l) with
      ⟨hSkip, hSkip'⟩ | ⟨c, rest, hSkip, hSkip'⟩
    · rw [hSkip, hSkip']
    · rw [hSkip, hSkip']
      rfl

theorem readLines_append_return
    {line : Nat}
    {above : List Entry}
    (front ls : List (List Char))
    (l : List Char) :
    readLines line above (front ++ (l ++ ['\r']) :: ls) =
      readLines line above (front ++ l :: ls) := by
  induction front generalizing line above with
  | nil => exact readLines_cons_return line above l ls
  | cons first front ih =>
      rw [List.cons_append, List.cons_append, readLines, readLines]
      simp only [ih]

/- A fault that is found is found with more lines below, too. -/
theorem readLines_append_of_error
    {line : Nat}
    {above : List Entry}
    {ls : List (List Char)}
    {e : GraphError}
    (hError : readLines line above ls = .error e)
    (more : List (List Char)) :
    readLines line above (ls ++ more) = .error e := by
  induction ls generalizing line above with
  | nil => cases hError
  | cons l ls ih =>
      rw [List.cons_append]
      unfold readLines at hError ⊢
      dsimp only at hError ⊢
      split at hError
      case isTrue hBlank =>
        rw [if_pos hBlank]
        exact ih hError
      case isFalse hFull =>
        rw [if_neg hFull]
        split at hError
        case h_1 => exact hError
        case h_2 => exact ih hError

------------------------------------------------------------
-- Lines
------------------------------------------------------------

theorem eq_nil_of_lines
    (hNone : lines cs = []) :
    cs = [] := by
  unfold lines at hNone
  split at hNone
  case h_1 => rfl
  case h_2 | h_3 => cases hNone
  case h_4 => split at hNone <;> cases hNone

/- A character that ends no line starts the first one. -/
theorem lines_cons
    {c : Char}
    {l : List Char}
    {ls : List (List Char)}
    (hReturn : ∀ rest, c = '\r' → cs = '\n' :: rest → False)
    (hFeed : c = '\n' → False)
    (hLines : lines cs = l :: ls) :
    lines (c :: cs) = (c :: l) :: ls := by
  rw [lines, hLines]
  · exact hReturn
  · exact hFeed

/-
  What stands before a line feed has the same lines, up to a
  carriage return at the end of the last one.
-/
theorem lines_append_newline
    (cs ds : List Char) :
    (∃ more, lines (cs ++ '\n' :: ds) = lines cs ++ more) ∨
      ∃ front l more, lines cs = front ++ [l ++ ['\r']] ∧
        lines (cs ++ '\n' :: ds) = front ++ l :: more := by
  fun_induction lines cs with
  | case1 => exact .inl ⟨[] :: lines ds, rfl⟩
  | case2 cs ih | case3 cs ih =>
      rcases ih with ⟨more, hLines⟩ | ⟨front, l, more, hLast, hLines⟩
      · exact .inl ⟨more, by simp [lines, hLines]⟩
      · refine .inr ⟨[] :: front, l, more, ?_, ?_⟩
        · simp [hLast]
        · simp [lines, hLines]
  | case4 c cs hReturn hFeed hNone _ =>
      -- The last character of the text may be half of the end of its line.
      cases eq_nil_of_lines hNone
      by_cases hHalf : c = '\r'
      · subst hHalf
        exact .inr ⟨[], [], lines ds, rfl, rfl⟩
      · refine .inl ⟨lines ds, ?_⟩
        exact lines_cons (fun _ hEnd => absurd hEnd hHalf) hFeed rfl
  | case5 c cs hReturn hFeed l ls hLines ih =>
      have hReturn' :
          ∀ rest, c = '\r' → cs ++ '\n' :: ds = '\n' :: rest → False := by
        intro rest hEnd hRest
        cases cs with
        | nil => cases hLines
        | cons d cs =>
            cases (List.cons.inj hRest).1
            exact hReturn cs hEnd rfl
      rcases ih with ⟨more, hMore⟩ | ⟨front, last, more, hLast, hMore⟩
      · rw [hLines] at hMore
        exact .inl ⟨more, lines_cons hReturn' hFeed hMore⟩
      · rw [hLines] at hLast
        cases front with
        | nil =>
            cases hLast
            exact .inr ⟨[], c :: last, more, rfl,
              lines_cons hReturn' hFeed hMore⟩
        | cons first front =>
            cases hLast
            exact .inr ⟨(c :: l) :: front, last, more, rfl,
              lines_cons hReturn' hFeed hMore⟩

/- A fault that is found in a text is found with more lines, too. -/
theorem readLines_append_newline
    {line : Nat}
    {above : List Entry}
    {e : GraphError}
    (hError : readLines line above (lines cs) = .error e)
    (ds : List Char) :
    readLines line above (lines (cs ++ '\n' :: ds)) = .error e := by
  rcases lines_append_newline cs ds with
    ⟨more, hLines⟩ | ⟨front, l, more, hLast, hLines⟩
  · rw [hLines]
    exact readLines_append_of_error hError more
  · rw [hLast] at hError
    have hMore := readLines_append_of_error hError more
    rw [List.append_assoc, List.singleton_append,
      readLines_append_return] at hMore
    rw [hLines]
    exact hMore

end Systolic
