import Mathlib.Data.List.Forall2
import Mathlib.Data.List.TakeWhile
import Systolic.Proofs.Graph.Parsing
import Systolic.Proofs.Text.Words

/-
  This file states the grammar of texts of graphs, and proves
  that exactly the texts of this grammar are read. A line is a
  list of tokens with blanks around them. Which tokens define a
  node is said without the readers, and the readers are compared
  with it token by token.

  Key definitions include:
    * `BeginsWith`
    * `Definition.Phrase`
    * `Definition.OnLine`
    * `Graph.Spells`
    * `Graph.Realizes`

  Key theorems include:
    * `readDefinition_eq_ok_iff_onLine`
    * `Graph.parse_eq_ok_iff_spells`
    * `Graph.parse_accepts_grammar`
-/

namespace Systolic

variable {cs rest : List Char} {name : String} {c : Char}
variable {tokens : List (List Char)} {d : Definition} {rounds : Nat}

------------------------------------------------------------
-- Blanks
------------------------------------------------------------

/- All of some characters are blank. -/
def IsBlanks (cs : List Char) : Prop :=
  cs.all isBlank = true

instance (cs : List Char) : Decidable (IsBlanks cs) := by
  unfold IsBlanks
  infer_instance

theorem isEmpty_skipBlanks_iff
    {cs : List Char} :
    (skipBlanks cs).isEmpty = true ↔ IsBlanks cs := by
  rw [skipBlanks, List.isEmpty_iff, List.dropWhile_eq_nil_iff, IsBlanks,
    List.all_eq_true]

/- The blanks in front are what is skipped. -/
theorem exists_blanks_append_skipBlanks (cs : List Char) :
    ∃ blanks, IsBlanks blanks ∧ cs = blanks ++ skipBlanks cs :=
  ⟨cs.takeWhile isBlank, List.all_takeWhile,
    List.takeWhile_append_dropWhile.symm⟩

theorem skipBlanks_append
    {blanks : List Char}
    (hBlanks : IsBlanks blanks)
    (hFirst : isBlank c = false)
    (cs : List Char) :
    skipBlanks (blanks ++ c :: cs) = c :: cs := by
  rw [skipBlanks, List.dropWhile_append_of_pos (List.all_eq_true.mp hBlanks),
    List.dropWhile_cons_of_neg (by simp [hFirst])]

------------------------------------------------------------
-- Tokens
------------------------------------------------------------

/-
  Characters begin with some tokens, with blanks before each of
  them, and go on with other characters.
-/
inductive BeginsWith :
    List (List Char) → List Char → List Char → Prop where
| nil
    (cs : List Char) :
    BeginsWith [] cs cs
| cons
    {blanks token cs rest : List Char}
    {tokens : List (List Char)}
    (hBlanks : IsBlanks blanks)
    (hTokens : BeginsWith tokens cs rest) :
    BeginsWith (token :: tokens) (blanks ++ (token ++ cs)) rest

namespace BeginsWith

variable {tokens' : List (List Char)}
variable {token middle : List Char}

theorem append
    (hFront : BeginsWith tokens cs middle)
    (hBack : BeginsWith tokens' middle rest) :
    BeginsWith (tokens ++ tokens') cs rest := by
  induction hFront with
  | nil cs => exact hBack
  | cons hBlanks hTokens ih => exact .cons hBlanks (ih hBack)

theorem of_append
    (hBoth : BeginsWith (tokens ++ tokens') cs rest) :
    ∃ middle,
      BeginsWith tokens cs middle ∧ BeginsWith tokens' middle rest := by
  induction tokens generalizing cs with
  | nil => exact ⟨cs, .nil cs, hBoth⟩
  | cons token tokens ih =>
      cases hBoth with
      | cons hBlanks hTokens =>
          rcases ih hTokens with ⟨middle, hFront, hBack⟩
          exact ⟨middle, .cons hBlanks hFront, hBack⟩

theorem append_iff :
    BeginsWith (tokens ++ tokens') cs rest ↔
      ∃ middle,
        BeginsWith tokens cs middle ∧ BeginsWith tokens' middle rest :=
  ⟨of_append, fun ⟨_, hFront, hBack⟩ => hFront.append hBack⟩

theorem cons_iff :
    BeginsWith (token :: tokens) cs rest ↔
      ∃ middle,
        BeginsWith [token] cs middle ∧ BeginsWith tokens middle rest := by
  rw [← List.singleton_append, append_iff]

theorem singleton_iff :
    BeginsWith [token] cs rest ↔
      ∃ blanks, IsBlanks blanks ∧ cs = blanks ++ (token ++ rest) := by
  constructor
  · intro hToken
    cases hToken with
    | cons hBlanks hNone =>
        cases hNone
        exact ⟨_, hBlanks, rfl⟩
  · rintro ⟨blanks, hBlanks, rfl⟩
    exact .cons hBlanks (.nil rest)

/- What is behind a token is shorter by it. -/
theorem length_add_le
    (hToken : BeginsWith [token] cs rest) :
    rest.length + token.length ≤ cs.length := by
  rcases singleton_iff.mp hToken with ⟨blanks, -, rfl⟩
  simp only [List.length_append]
  omega

theorem length_le
    (hBegins : BeginsWith tokens cs rest) :
    rest.length ≤ cs.length := by
  induction hBegins with
  | nil cs => exact Nat.le_refl _
  | cons hBlanks hTokens ih =>
      simp only [List.length_append]
      omega

/- A token that starts without a blank is what is left of them. -/
theorem skipBlanks_eq
    (hToken : BeginsWith [c :: token] cs rest)
    (hFirst : isBlank c = false) :
    skipBlanks cs = c :: token ++ rest := by
  rcases singleton_iff.mp hToken with ⟨blanks, hBlanks, rfl⟩
  exact skipBlanks_append hBlanks hFirst (token ++ rest)

theorem of_skipBlanks_eq
    (hSkip : skipBlanks cs = token ++ rest) :
    BeginsWith [token] cs rest := by
  rcases exists_blanks_append_skipBlanks cs with ⟨blanks, hBlanks, hSplit⟩
  rw [hSkip] at hSplit
  exact singleton_iff.mpr ⟨blanks, hBlanks, hSplit⟩

end BeginsWith

/-
  The tokens of one item or more, with commas between them, when
  it is known which tokens an item has.
-/
inductive Listed
    {α : Type}
    (Item : α → List (List Char) → Prop) :
    List α → List (List Char) → Prop where
| last
    {a : α}
    {tokens : List (List Char)}
    (hItem : Item a tokens) :
    Listed Item [a] tokens
| more
    {a : α}
    {as : List α}
    {tokens others : List (List Char)}
    (hItem : Item a tokens)
    (hRest : Listed Item as others) :
    Listed Item (a :: as) (tokens ++ ([','] :: others))

------------------------------------------------------------
-- Marks
------------------------------------------------------------

theorem readChar?_eq_some_iff
    (hMark : isBlank c = false) :
    readChar? c cs = some rest ↔ BeginsWith [[c]] cs rest := by
  constructor
  · intro hRead
    unfold readChar? at hRead
    split at hRead
    case h_1 => cases hRead
    case h_2 d cs' hSkip =>
      split at hRead
      case isFalse => cases hRead
      case isTrue hSame =>
        cases hRead
        rw [hSame] at hSkip
        exact .of_skipBlanks_eq hSkip
  · intro hBegins
    unfold readChar?
    rw [hBegins.skipBlanks_eq hMark]
    exact if_pos rfl

theorem readChar_eq_ok_iff
    (hMark : isBlank c = false) :
    readChar c cs = .ok ((), rest) ↔ BeginsWith [[c]] cs rest := by
  rw [← readChar?_eq_some_iff hMark, readChar]
  cases readChar? c cs with
  | none => simp
  | some rest' => simp

/- Another mark, or the first character of a word, is not taken. -/
theorem readChar?_eq_none
    {d : Char}
    {token : List Char}
    (hBegins : BeginsWith [d :: token] cs rest)
    (hFirst : isBlank d = false)
    (hOther : d ≠ c) :
    readChar? c cs = none := by
  unfold readChar?
  rw [hBegins.skipBlanks_eq hFirst]
  exact if_neg hOther

theorem readChar?_of_isBlanks
    (hBlanks : IsBlanks cs)
    (c : Char) :
    readChar? c cs = none := by
  unfold readChar?
  rw [List.isEmpty_iff.mp (isEmpty_skipBlanks_iff.mpr hBlanks)]

------------------------------------------------------------
-- Words and Numbers
------------------------------------------------------------

/- The first of some characters, if there is one, is not in a class. -/
def Ends
    (p : Char → Bool)
    (cs : List Char) : Prop :=
  cs.head?.any p = false

section Ends

variable {p : Char → Bool} {token : List Char}

theorem ends_dropWhile
    (p : Char → Bool)
    (cs : List Char) :
    Ends p (cs.dropWhile p) := by
  have hFirst := List.head?_dropWhile_not p cs
  unfold Ends
  cases hHead : (cs.dropWhile p).head? with
  | none => rfl
  | some c =>
      rw [hHead] at hFirst
      exact hFirst

/- The longest run of a class stops where the class does. -/
theorem takeWhile_append_of_ends
    (hAll : ∀ c ∈ token, p c = true)
    (hEnds : Ends p rest) :
    (token ++ rest).takeWhile p = token := by
  rw [List.takeWhile_append_of_pos hAll]
  cases rest with
  | nil => simp
  | cons c cs =>
      rw [List.takeWhile_cons_of_neg (by simpa [Ends] using hEnds),
        List.append_nil]

theorem dropWhile_append_of_ends
    (hAll : ∀ c ∈ token, p c = true)
    (hEnds : Ends p rest) :
    (token ++ rest).dropWhile p = rest := by
  rw [List.dropWhile_append_of_pos hAll]
  cases rest with
  | nil => rfl
  | cons c cs =>
      exact List.dropWhile_cons_of_neg (by simpa [Ends] using hEnds)

-- The class has only characters of names, so it has no blanks.
variable (hNames : ∀ c, p c = true → isNameChar c = true)

include hNames in
theorem not_of_isBlank
    (hBlank : isBlank c = true) :
    p c = false := by
  apply Bool.eq_false_iff.mpr
  intro hClass
  rw [isBlank_of_isNameChar (hNames c hClass)] at hBlank
  cases hBlank

include hNames in
theorem ends_of_isBlanks
    (hBlanks : IsBlanks cs) :
    Ends p cs := by
  cases cs with
  | nil => rfl
  | cons c cs =>
      exact not_of_isBlank hNames
        (List.all_eq_true.mp hBlanks c List.mem_cons_self)

/- A word stops before a token that starts otherwise. -/
include hNames in
theorem BeginsWith.ends
    (hBegins : BeginsWith [c :: token] cs rest)
    (hOther : p c = false) :
    Ends p cs := by
  rcases BeginsWith.singleton_iff.mp hBegins with ⟨blanks, hBlanks, rfl⟩
  cases blanks with
  | nil => exact hOther
  | cons b blanks =>
      exact not_of_isBlank hNames
        (List.all_eq_true.mp hBlanks b List.mem_cons_self)

end Ends

theorem isNameChar_of_isDigit
    (hDigit : c.isDigit = true) :
    isNameChar c = true := by
  simp [isNameChar, Char.isAlphanum, hDigit]

/- The first character of a name. -/
theorem IsValueName.exists_cons
    (hName : IsValueName name) :
    ∃ c tail, name.toList = c :: tail ∧ isNameStart c = true := by
  rcases hName with ⟨hStart, -⟩
  cases hChars : name.toList with
  | nil =>
      rw [hChars] at hStart
      cases hStart
  | cons c tail =>
      rw [hChars] at hStart
      exact ⟨c, tail, rfl, hStart⟩

/- A name is the longest run of its characters. -/
theorem readName_eq_ok_iff
    {cs rest : List Char} :
    readName cs = .ok (name, rest) ↔
      IsValueName name ∧ BeginsWith [name.toList] cs rest ∧
        Ends isNameChar rest := by
  constructor
  · intro hRead
    refine ⟨isValueName_of_readName hRead, ?_⟩
    unfold readName at hRead
    dsimp only at hRead
    split at hRead
    case isFalse => cases hRead
    case isTrue =>
      cases hRead
      rw [String.toList_ofList]
      exact ⟨.of_skipBlanks_eq List.takeWhile_append_dropWhile.symm,
        ends_dropWhile isNameChar _⟩
  · rintro ⟨hName, hBegins, hEnds⟩
    rcases hName.exists_cons with ⟨c, tail, hChars, hStart⟩
    rw [hChars] at hBegins
    have hSkip := hBegins.skipBlanks_eq
      (isBlank_of_isNameChar (isNameChar_of_isNameStart hStart))
    have hAll : ∀ d ∈ c :: tail, isNameChar d = true := by
      rw [← hChars]
      exact List.all_eq_true.mp hName.2
    unfold readName
    dsimp only
    rw [hSkip, if_pos (by simpa using hStart),
      takeWhile_append_of_ends hAll hEnds,
      dropWhile_append_of_ends hAll hEnds, ← hChars, String.ofList_toList]

/- The mark of a value and its name. -/
def ValuePhrase
    (name : String)
    (tokens : List (List Char)) : Prop :=
  IsValueName name ∧ tokens = [['%'], name.toList]

theorem readValue_eq_ok_iff
    {cs rest : List Char} :
    readValue cs = .ok (name, rest) ↔
      ∃ tokens, ValuePhrase name tokens ∧ BeginsWith tokens cs rest ∧
        Ends isNameChar rest := by
  unfold readValue
  constructor
  · intro hRead
    split at hRead
    case h_1 => cases hRead
    case h_2 middle hMark =>
      rcases readName_eq_ok_iff.mp hRead with ⟨hName, hBegins, hEnds⟩
      have hMark' := (readChar_eq_ok_iff (by decide)).mp hMark
      exact ⟨_, ⟨hName, rfl⟩, hMark'.append hBegins, hEnds⟩
  · rintro ⟨tokens, ⟨hName, rfl⟩, hBegins, hEnds⟩
    rcases BeginsWith.cons_iff.mp hBegins with ⟨middle, hMark, hWord⟩
    rw [(readChar_eq_ok_iff (by decide)).mpr hMark]
    exact readName_eq_ok_iff.mpr ⟨hName, hWord, hEnds⟩

/- A token is a decimal number that is a positive count. -/
structure IsDimension
    (n : Nat)
    (token : List Char) : Prop where
  nonempty : token ≠ []
  digits : ∀ c ∈ token, c.isDigit = true
  value : Nat.ofDigitChars 10 token 0 = n
  pos : 0 < n
  bounded : n < Count.limit

/- The token of a dimension. -/
def DimensionPhrase
    (n : Nat)
    (tokens : List (List Char)) : Prop :=
  ∃ token, IsDimension n token ∧ tokens = [token]

/- A dimension is the longest run of digits. -/
theorem readDimension_eq_ok_iff
    {n : Nat}
    {cs rest : List Char} :
    readDimension cs = .ok (n, rest) ↔
      ∃ tokens, DimensionPhrase n tokens ∧ BeginsWith tokens cs rest ∧
        Ends Char.isDigit rest := by
  constructor
  · intro hRead
    unfold readDimension at hRead
    split at hRead
    case h_1 => cases hRead
    case h_2 k rest' hNumber =>
      split at hRead
      case isTrue => cases hRead
      case isFalse hPositive =>
        cases hRead
        unfold readNumber at hNumber
        dsimp only at hNumber
        split at hNumber
        case isTrue => cases hNumber
        case isFalse hDigits =>
          split at hNumber
          case isFalse => cases hNumber
          case isTrue hBounded =>
            cases hNumber
            refine ⟨_, ⟨_, ?_, rfl⟩, .of_skipBlanks_eq
              List.takeWhile_append_dropWhile.symm, ends_dropWhile _ _⟩
            constructor
            case nonempty => simpa using hDigits
            case digits => exact List.all_eq_true.mp List.all_takeWhile
            case value => rfl
            case pos => exact Nat.pos_of_ne_zero hPositive
            case bounded => exact hBounded
  · rintro ⟨tokens, ⟨token, hToken, rfl⟩, hBegins, hEnds⟩
    rcases List.exists_cons_of_ne_nil hToken.nonempty with ⟨c, tail, rfl⟩
    have hFirst : isBlank c = false :=
      isBlank_of_isNameChar
        (isNameChar_of_isDigit (hToken.digits c List.mem_cons_self))
    have hNumber : readNumber cs = .ok (n, rest) := by
      unfold readNumber
      dsimp only
      rw [hBegins.skipBlanks_eq hFirst,
        takeWhile_append_of_ends hToken.digits hEnds,
        dropWhile_append_of_ends hToken.digits hEnds, hToken.value,
        if_neg (by simp), if_pos hToken.bounded]
    unfold readDimension
    rw [hNumber]
    exact if_neg (Nat.ne_of_gt hToken.pos)

------------------------------------------------------------
-- Lists
------------------------------------------------------------

/-
  An item of a list ends where a class of characters does, and no
  comma is in the class. A comma is taken before another item, and
  given tokens at the end of the list.
-/
structure Separates
    {α : Type}
    (item : Reader α)
    (Item : α → List (List Char) → Prop)
    (p : Char → Bool)
    (more : Reader Bool)
    (close : List (List Char)) : Prop where
  item_iff :
    ∀ {cs a rest}, item cs = .ok (a, rest) ↔
      ∃ tokens, Item a tokens ∧ BeginsWith tokens cs rest ∧ Ends p rest
  names : ∀ c, p c = true → isNameChar c = true
  comma : p ',' = false
  more_iff :
    ∀ {cs rest}, more cs = .ok (true, rest) ↔ BeginsWith [[',']] cs rest
  close_of :
    ∀ {cs rest}, more cs = .ok (false, rest) → BeginsWith close cs rest

namespace Separates

variable {α : Type} {item : Reader α} {more : Reader Bool}
variable {Item : α → List (List Char) → Prop} {p : Char → Bool}
variable {close : List (List Char)} {as : List α}
variable (hList : Separates item Item p more close)
include hList

theorem exists_listed
    (hRead : readItems item more rounds cs = .ok (as, rest)) :
    ∃ tokens, Listed Item as tokens ∧
      BeginsWith (tokens ++ close) cs rest := by
  induction rounds generalizing as cs rest with
  | zero => cases hRead
  | succ rounds ih =>
      unfold readItems at hRead
      split at hRead
      case h_1 => cases hRead
      case h_2 a middle hFirst =>
        rcases hList.item_iff.mp hFirst with ⟨tokens, hItem, hTokens, -⟩
        split at hRead
        case h_1 => cases hRead
        case h_2 hMore =>
          cases hRead
          exact ⟨tokens, .last hItem, hTokens.append (hList.close_of hMore)⟩
        case h_3 behind hMore =>
          split at hRead
          case h_1 => cases hRead
          case h_2 as' rest' hRest =>
            cases hRead
            rcases ih hRest with ⟨others, hListed, hBegins⟩
            refine ⟨_, .more hItem hListed, ?_⟩
            rw [List.append_assoc]
            exact hTokens.append ((hList.more_iff.mp hMore).append hBegins)

/- Each round takes a comma, so there are enough of them. -/
theorem readItems_of_listed
    (hListed : Listed Item as tokens)
    (hBegins : BeginsWith (tokens ++ close) cs rest)
    (hClose :
      ∀ {cs}, BeginsWith close cs rest →
        more cs = .ok (false, rest) ∧ Ends p cs)
    (hRounds : cs.length < rounds) :
    readItems item more rounds cs = .ok (as, rest) := by
  induction hListed generalizing cs rounds with
  | last hItem =>
      rcases rounds with _ | rounds
      · cases hRounds
      rcases hBegins.of_append with ⟨middle, hTokens, hEnd⟩
      rcases hClose hEnd with ⟨hMore, hEnds⟩
      unfold readItems
      rw [hList.item_iff.mpr ⟨_, hItem, hTokens, hEnds⟩]
      dsimp only
      rw [hMore]
  | more hItem hRest ih =>
      rcases rounds with _ | rounds
      · cases hRounds
      rw [List.append_assoc] at hBegins
      rcases hBegins.of_append with ⟨middle, hTokens, hComma⟩
      rcases BeginsWith.cons_iff.mp hComma with ⟨behind, hComma, hOthers⟩
      have hFirst := hList.item_iff.mpr
        ⟨_, hItem, hTokens, hComma.ends hList.names hList.comma⟩
      have hShorter : behind.length < rounds := by
        have hMiddle := hTokens.length_le
        have hBehind := hComma.length_add_le
        rw [List.length_singleton] at hBehind
        omega
      unfold readItems
      rw [hFirst]
      dsimp only
      rw [hList.more_iff.mpr hComma]
      dsimp only
      rw [ih hOthers hShorter]

end Separates

------------------------------------------------------------
-- Shapes
------------------------------------------------------------

theorem separates_dimensions :
    Separates readDimension DimensionPhrase Char.isDigit moreDimensions
      [[']']] where
  item_iff := readDimension_eq_ok_iff
  names := fun _ => isNameChar_of_isDigit
  comma := by decide
  more_iff := by
    intro cs rest
    unfold moreDimensions
    constructor
    · intro hMore
      split at hMore
      case h_1 => cases hMore
      case h_2 =>
        split at hMore
        case h_1 => cases hMore
        case h_2 hComma =>
          cases hMore
          exact (readChar_eq_ok_iff (by decide)).mp hComma
    · intro hComma
      rw [readChar?_eq_none hComma (by decide) (by decide)]
      dsimp only
      rw [(readChar_eq_ok_iff (by decide)).mpr hComma]
  close_of := by
    intro cs rest hMore
    unfold moreDimensions at hMore
    split at hMore
    case h_1 hClose =>
      cases hMore
      exact (readChar?_eq_some_iff (by decide)).mp hClose
    case h_2 => split at hMore <;> cases hMore

/- The tokens of a shape. -/
def ShapePhrase
    (shape : List Nat)
    (tokens : List (List Char)) : Prop :=
  ∃ inner, Listed DimensionPhrase shape inner ∧
    tokens = [['[']] ++ (inner ++ [[']']])

/- A list of dimensions does not start with a bracket. -/
theorem readChar?_of_listed
    {ns : List Nat}
    {others : List (List Char)}
    (hList : Listed DimensionPhrase ns tokens)
    (hBegins : BeginsWith (tokens ++ others) cs rest) :
    readChar? ']' cs = none := by
  have hFirst :
      ∃ n token middle, IsDimension n token ∧
        BeginsWith [token] cs middle := by
    cases hList with
    | last hItem =>
        rcases hItem with ⟨token, hDimension, rfl⟩
        rcases hBegins.of_append with ⟨middle, hToken, -⟩
        exact ⟨_, token, middle, hDimension, hToken⟩
    | more hItem =>
        rcases hItem with ⟨token, hDimension, rfl⟩
        rw [List.append_assoc] at hBegins
        rcases hBegins.of_append with ⟨middle, hToken, -⟩
        exact ⟨_, token, middle, hDimension, hToken⟩
  rcases hFirst with ⟨n, token, middle, hDimension, hToken⟩
  rcases List.exists_cons_of_ne_nil hDimension.nonempty with ⟨c, tail, rfl⟩
  have hDigit := hDimension.digits c List.mem_cons_self
  refine readChar?_eq_none hToken
    (isBlank_of_isNameChar (isNameChar_of_isDigit hDigit)) ?_
  rintro rfl
  cases hDigit

theorem readShape_eq_ok_iff
    {shape : List Nat}
    {cs rest : List Char} :
    readShape cs = .ok (shape, rest) ↔
      ∃ tokens, ShapePhrase shape tokens ∧ BeginsWith tokens cs rest := by
  constructor
  · intro hRead
    unfold readShape at hRead
    split at hRead
    case h_1 => cases hRead
    case h_2 middle hOpen =>
      split at hRead
      case h_1 => cases hRead
      case h_2 =>
        rcases separates_dimensions.exists_listed hRead with
          ⟨inner, hList, hBegins⟩
        exact ⟨_, ⟨inner, hList, rfl⟩,
          ((readChar_eq_ok_iff (by decide)).mp hOpen).append hBegins⟩
  · rintro ⟨tokens, ⟨inner, hList, rfl⟩, hBegins⟩
    rcases hBegins.of_append with ⟨middle, hOpen, hInner⟩
    unfold readShape
    rw [(readChar_eq_ok_iff (by decide)).mpr hOpen]
    dsimp only
    rw [readChar?_of_listed hList hInner]
    refine separates_dimensions.readItems_of_listed hList hInner ?_
      (Nat.lt_succ_self _)
    intro cs hClose
    refine ⟨?_, hClose.ends (fun _ => isNameChar_of_isDigit) (by decide)⟩
    unfold moreDimensions
    rw [(readChar?_eq_some_iff (by decide)).mpr hClose]

------------------------------------------------------------
-- Operands
------------------------------------------------------------

theorem separates_operands :
    Separates readValue ValuePhrase isNameChar moreOperands [] where
  item_iff := readValue_eq_ok_iff
  names := fun _ hClass => hClass
  comma := by decide
  more_iff := by
    intro cs rest
    rw [← readChar?_eq_some_iff (by decide), moreOperands]
    cases readChar? ',' cs with
    | none => simp
    | some rest' => simp
  close_of := by
    intro cs rest hMore
    unfold moreOperands at hMore
    split at hMore
    case h_1 =>
      cases hMore
      exact .nil cs
    case h_2 => cases hMore

------------------------------------------------------------
-- Definitions
------------------------------------------------------------

/- The tokens after the name of an operation. -/
inductive ArgumentPhrase :
    NodeOp → List String → List (List Char) → Prop where
| input
    {shape : List Nat}
    {tokens : List (List Char)}
    (hShape : ShapePhrase shape tokens) :
    ArgumentPhrase (.input shape) [] tokens
| constant
    {shape : List Nat}
    {tokens : List (List Char)}
    (hShape : ShapePhrase shape tokens) :
    ArgumentPhrase (.constant shape) [] tokens
| applied
    {op : NodeOp}
    {names : List String}
    {tokens : List (List Char)}
    (hOp : op ∈ [NodeOp.matMul, .add, .relu])
    (hNames : Listed ValuePhrase names tokens) :
    ArgumentPhrase op names tokens

namespace Definition

/- The tokens of a definition. -/
def Phrase
    (d : Definition)
    (tokens : List (List Char)) : Prop :=
  ∃ value arguments, ValuePhrase d.name value ∧
    ArgumentPhrase d.op d.operands arguments ∧
    tokens = value ++ ([['=']] ++ ([d.op.name.toList] ++ arguments))

/- A line is a definition, with blanks around its tokens. -/
def OnLine
    (d : Definition)
    (cs : List Char) : Prop :=
  ∃ tokens rest, d.Phrase tokens ∧ BeginsWith tokens cs rest ∧
    IsBlanks rest

end Definition

/- The name of an operation is a word. -/
theorem isValueName_name (op : NodeOp) :
    IsValueName op.name := by
  cases op <;> simp only [NodeOp.name] <;> decide

/- Arguments start with a bracket or the mark of a value. -/
theorem ArgumentPhrase.exists_cons
    {op : NodeOp}
    {names : List String}
    (hArguments : ArgumentPhrase op names tokens) :
    ∃ c others, isNameChar c = false ∧ tokens = [c] :: others := by
  have hShaped :
      ∀ {shape}, ShapePhrase shape tokens →
        ∃ c others, isNameChar c = false ∧ tokens = [c] :: others := by
    rintro shape ⟨inner, -, rfl⟩
    exact ⟨'[', inner ++ [[']']], by decide, rfl⟩
  cases hArguments with
  | input hShape => exact hShaped hShape
  | constant hShape => exact hShaped hShape
  | applied hOp hNames =>
      cases hNames with
      | last hItem =>
          rcases hItem with ⟨-, rfl⟩
          exact ⟨'%', _, by decide, rfl⟩
      | more hItem =>
          rcases hItem with ⟨-, rfl⟩
          exact ⟨'%', _, by decide, rfl⟩

theorem exists_argumentPhrase_of_readShaped
    {op : List Nat → NodeOp}
    (hOp :
      ∀ {shape tokens}, ShapePhrase shape tokens →
        ArgumentPhrase (op shape) [] tokens)
    (hRead : readShaped name op cs = .ok (d, rest)) :
    (∃ shape, d.op = op shape) ∧
      ∃ tokens, ArgumentPhrase d.op d.operands tokens ∧
        BeginsWith tokens cs rest := by
  unfold readShaped readInto at hRead
  split at hRead
  case h_1 => cases hRead
  case h_2 shape rest' hShape =>
    cases hRead
    rcases readShape_eq_ok_iff.mp hShape with ⟨tokens, hPhrase, hBegins⟩
    exact ⟨⟨shape, rfl⟩, tokens, hOp hPhrase, hBegins⟩

theorem exists_argumentPhrase_of_readApplied
    {op : NodeOp}
    (hOp : op ∈ [NodeOp.matMul, .add, .relu])
    (hRead : readApplied name op cs = .ok (d, rest)) :
    d.op = op ∧
      ∃ tokens, ArgumentPhrase d.op d.operands tokens ∧
        BeginsWith tokens cs rest := by
  unfold readApplied readInto at hRead
  split at hRead
  case h_1 => cases hRead
  case h_2 names rest' hNames =>
    cases hRead
    rcases separates_operands.exists_listed hNames with
      ⟨tokens, hList, hBegins⟩
    rw [List.append_nil] at hBegins
    exact ⟨rfl, tokens, .applied hOp hList, hBegins⟩

/- Arguments are those of the operation that is named before them. -/
theorem exists_argumentPhrase_of_readArguments
    {operation : String}
    (hRead : readArguments name operation cs = .ok (d, rest)) :
    operation = d.op.name ∧
      ∃ tokens, ArgumentPhrase d.op d.operands tokens ∧
        BeginsWith tokens cs rest := by
  unfold readArguments at hRead
  split at hRead
  case isTrue hName =>
    rcases exists_argumentPhrase_of_readShaped .input hRead with
      ⟨⟨shape, hOp⟩, hPhrase⟩
    exact ⟨by rw [hName, hOp]; rfl, hPhrase⟩
  split at hRead
  case isTrue hName =>
    rcases exists_argumentPhrase_of_readShaped .constant hRead with
      ⟨⟨shape, hOp⟩, hPhrase⟩
    exact ⟨by rw [hName, hOp]; rfl, hPhrase⟩
  split at hRead
  case isTrue hName =>
    rcases exists_argumentPhrase_of_readApplied (by decide) hRead with
      ⟨hOp, hPhrase⟩
    exact ⟨by rw [hName, hOp]; rfl, hPhrase⟩
  split at hRead
  case isTrue hName =>
    rcases exists_argumentPhrase_of_readApplied (by decide) hRead with
      ⟨hOp, hPhrase⟩
    exact ⟨by rw [hName, hOp]; rfl, hPhrase⟩
  split at hRead
  case isTrue hName =>
    rcases exists_argumentPhrase_of_readApplied (by decide) hRead with
      ⟨hOp, hPhrase⟩
    exact ⟨by rw [hName, hOp]; rfl, hPhrase⟩
  case isFalse => cases hRead

theorem readArguments_of_argumentPhrase
    (hArguments : ArgumentPhrase d.op d.operands tokens)
    (hBegins : BeginsWith tokens cs rest)
    (hBlanks : IsBlanks rest) :
    readArguments d.name d.op.name cs = .ok (d, rest) := by
  rcases d with ⟨name, op, operands⟩
  have hShaped :
      ∀ {shape} (op : List Nat → NodeOp), ShapePhrase shape tokens →
        readShaped name op cs =
          .ok ({ name, op := op shape, operands := [] }, rest) := by
    intro shape op hShape
    unfold readShaped readInto
    rw [readShape_eq_ok_iff.mpr ⟨tokens, hShape, hBegins⟩]
  have hApplied :
      ∀ (op : NodeOp), Listed ValuePhrase operands tokens →
        readApplied name op cs = .ok ({ name, op, operands }, rest) := by
    intro op hList
    have hAll : BeginsWith (tokens ++ []) cs rest := by
      rw [List.append_nil]
      exact hBegins
    have hRead : readOperands cs = .ok (operands, rest) := by
      refine separates_operands.readItems_of_listed hList hAll ?_
        (Nat.lt_succ_self _)
      intro cs hClose
      cases hClose
      refine ⟨?_, ends_of_isBlanks (fun _ hClass => hClass) hBlanks⟩
      rw [moreOperands, readChar?_of_isBlanks hBlanks]
    unfold readApplied readInto
    rw [hRead]
  cases hArguments with
  | input hShape => exact hShaped .input hShape
  | constant hShape => exact hShaped .constant hShape
  | applied hOp hNames =>
      simp only [List.mem_cons, List.not_mem_nil, or_false] at hOp
      rcases hOp with rfl | rfl | rfl
      · exact hApplied .matMul hNames
      · exact hApplied .add hNames
      · exact hApplied .relu hNames

/- A line is read on its own exactly if it is a definition. -/
theorem readDefinition_eq_ok_iff_onLine
    {cs : List Char} :
    readDefinition [] cs = .ok d ↔ d.OnLine cs := by
  unfold readDefinition
  simp only [List.find?_nil]
  constructor
  · intro hRead
    split at hRead
    case h_1 => cases hRead
    case h_2 name afterName hValue =>
      rcases readValue_eq_ok_iff.mp hValue with ⟨value, hName, hFront, -⟩
      cases name_of_readBody hRead
      unfold readBody at hRead
      split at hRead
      case h_1 => cases hRead
      case h_2 afterMark hMark =>
        have hMark' := (readChar_eq_ok_iff (by decide)).mp hMark
        split at hRead
        case h_1 => cases hRead
        case h_2 operation afterWord hWord =>
          rcases readName_eq_ok_iff.mp hWord with ⟨-, hWord', -⟩
          split at hRead
          case h_1 => cases hRead
          case h_2 d' rest hArguments =>
            split at hRead
            case isFalse => cases hRead
            case isTrue hEmpty =>
              cases hRead
              rcases exists_argumentPhrase_of_readArguments hArguments with
                ⟨rfl, tokens, hPhrase, hBegins⟩
              exact ⟨_, rest, ⟨value, tokens, hName, hPhrase, rfl⟩,
                hFront.append (hMark'.append (hWord'.append hBegins)),
                isEmpty_skipBlanks_iff.mp hEmpty⟩
  · rintro ⟨tokens, rest, ⟨value, arguments, hName, hPhrase, rfl⟩,
      hBegins, hBlanks⟩
    rcases hBegins.of_append with ⟨afterName, hFront, hBegins⟩
    rcases hBegins.of_append with ⟨afterMark, hMark, hBegins⟩
    rcases hBegins.of_append with ⟨afterWord, hWord, hArguments⟩
    have hWordEnds : Ends isNameChar afterWord := by
      rcases hPhrase.exists_cons with ⟨c, others, hOther, rfl⟩
      rcases BeginsWith.cons_iff.mp hArguments with ⟨_, hFirst, -⟩
      exact hFirst.ends (fun _ hClass => hClass) hOther
    rw [readValue_eq_ok_iff.mpr ⟨value, hName, hFront,
      hMark.ends (fun _ hClass => hClass) (by decide)⟩]
    dsimp only
    unfold readBody
    rw [(readChar_eq_ok_iff (by decide)).mpr hMark]
    dsimp only
    rw [readName_eq_ok_iff.mpr ⟨isValueName_name d.op, hWord, hWordEnds⟩]
    dsimp only
    rw [readArguments_of_argumentPhrase hPhrase hArguments hBlanks]
    exact if_pos (isEmpty_skipBlanks_iff.mpr hBlanks)

------------------------------------------------------------
-- Texts
------------------------------------------------------------

/-
  The lines of a text up to their comments, without those that
  have only blanks there.
-/
def contentLines (text : String) : List (List Char) :=
  ((lines text.toList).map withoutComment).filter (fun cs => ¬ IsBlanks cs)

namespace Graph

/-
  The lines of a text are definitions of different names, and
  each operand is defined on some line.
-/
structure Spells
    (text : String)
    (defs : List Definition) : Prop where
  lines : List.Forall₂ Definition.OnLine defs (contentLines text)
  consistent : Definition.Consistent defs

/-
  The nodes of a graph are some definitions in their order, and
  the operands of each are the places of those that it names.
-/
def Realizes
    (g : Graph)
    (defs : List Definition) : Prop :=
  List.Forall₂
    (fun n d =>
      n.name = d.name ∧ n.op = d.op ∧
        List.Forall₂
          (fun i name => defs[i]?.map Definition.name = some name)
          n.operands d.operands)
    g.nodes defs

end Graph

/- Lines that are read are definitions, apart from the blank ones. -/
theorem forall₂_onLine_iff
    {ls : List (List Char)}
    {defs : List Definition} :
    List.Forall₂ Definition.OnLine defs
        ((ls.map withoutComment).filter (fun cs => ¬ IsBlanks cs)) ↔
      (∀ cs ∈ ls, IsReadable cs) ∧ defs = ls.flatMap lineDefinitions := by
  induction ls generalizing defs with
  | nil => simp
  | cons cs ls ih =>
      rw [List.map_cons, List.forall_mem_cons, List.flatMap_cons]
      by_cases hBlank : IsBlanks (withoutComment cs)
      · have hEmpty := isEmpty_skipBlanks_iff.mpr hBlank
        rw [List.filter_cons_of_neg (by simpa using hBlank), ih,
          lineDefinitions, if_pos hEmpty, List.nil_append]
        exact ⟨fun hRest => ⟨⟨.inl hEmpty, hRest.1⟩, hRest.2⟩,
          fun hAll => ⟨hAll.1.2, hAll.2⟩⟩
      · have hFull : ¬ (skipBlanks (withoutComment cs)).isEmpty = true :=
          fun hEmpty => hBlank (isEmpty_skipBlanks_iff.mp hEmpty)
        rw [List.filter_cons_of_pos (by simpa using hBlank),
          List.forall₂_cons_right_iff, lineDefinitions, if_neg hFull]
        constructor
        · rintro ⟨d, defs', hLine, hRest, rfl⟩
          rcases ih.mp hRest with ⟨hReadable, rfl⟩
          have hRead := readDefinition_eq_ok_iff_onLine.mpr hLine
          exact ⟨⟨.inr ⟨d, hRead⟩, hReadable⟩, by simp [hRead, Except.toOption]⟩
        · rintro ⟨⟨hFirst, hReadable⟩, rfl⟩
          rcases hFirst with hEmpty | ⟨d, hRead⟩
          · exact absurd hEmpty hFull
          · exact ⟨d, ls.flatMap lineDefinitions,
              readDefinition_eq_ok_iff_onLine.mp hRead,
              ih.mpr ⟨hReadable, rfl⟩, by simp [hRead, Except.toOption]⟩

namespace Graph

variable {text : String}

/- A text spells the definitions of its lines, and no others. -/
theorem spells_iff
    {defs : List Definition} :
    Spells text defs ↔
      (∀ cs ∈ Systolic.lines text.toList, IsReadable cs) ∧
        Definition.Consistent (definitions text) ∧
        defs = definitions text := by
  constructor
  · rintro ⟨hLines, hConsistent⟩
    rcases forall₂_onLine_iff.mp hLines with ⟨hReadable, rfl⟩
    exact ⟨hReadable, hConsistent, rfl⟩
  · rintro ⟨hReadable, hConsistent, rfl⟩
    exact ⟨forall₂_onLine_iff.mpr ⟨hReadable, rfl⟩, hConsistent⟩

/- The definitions that a text spells are those of its lines. -/
theorem exists_spells_iff
    {P : List Definition → Prop} :
    (∃ defs, Spells text defs ∧ P defs) ↔
      (∀ cs ∈ Systolic.lines text.toList, IsReadable cs) ∧
        Definition.Consistent (definitions text) ∧
        P (definitions text) := by
  simp only [spells_iff]
  constructor
  · rintro ⟨defs, ⟨hReadable, hConsistent, rfl⟩, hP⟩
    exact ⟨hReadable, hConsistent, hP⟩
  · rintro ⟨hReadable, hConsistent, hP⟩
    exact ⟨_, ⟨hReadable, hConsistent, rfl⟩, hP⟩

/- A text is read as the draft of the definitions that it spells. -/
theorem draft_parse_eq_ok_iff_spells
    {draft : Draft} :
    Draft.parse text = .ok draft ↔
      ∃ defs, Spells text defs ∧ draft = .ofDefinitions defs := by
  rw [Draft.parse_eq_ok_iff, exists_spells_iff]

theorem parse_eq_ok_iff_spells
    {g : Graph} :
    Graph.parse text = .ok g ↔
      ∃ defs, Spells text defs ∧ g = ofDefinitions defs := by
  rw [parse_eq_ok_iff, exists_spells_iff]

/-
  The numbers of nodes that are read have 32 bits if there are no
  more than 2^32 lines.
-/
theorem parse_numbers_lt
    {g : Graph}
    (hParse : Graph.parse text = .ok g)
    (hLines : (Systolic.lines text.toList).length ≤ UInt32.size) :
    g.nodes.length ≤ UInt32.size ∧
      ∀ n ∈ g.nodes, ∀ i ∈ n.operands, i < UInt32.size := by
  rcases parse_eq_ok_iff_spells.mp hParse with ⟨defs, hSpells, rfl⟩
  have hCount : defs.length ≤ (Systolic.lines text.toList).length := by
    rw [hSpells.lines.length_eq]
    exact (List.length_filter_le _ _).trans_eq (List.length_map _)
  constructor
  · rw [ofDefinitions, List.length_map]
    omega
  · intro n hMem i hOperand
    rcases List.mem_map.mp hMem with ⟨d, -, rfl⟩
    rcases List.mem_filterMap.mp hOperand with ⟨name, -, hPlace⟩
    rcases Definition.of_place?_eq_some hPlace with ⟨c, hGet, -⟩
    have hInside := (List.getElem?_eq_some_iff.mp hGet).1
    omega

end Graph

------------------------------------------------------------
-- Nodes
------------------------------------------------------------

namespace Definition

variable {defs : List Definition}

/- A name stands at one place only. -/
theorem Consistent.place?_eq_some_iff
    (hDefs : Consistent defs)
    {i : Nat}
    {name : String} :
    place? defs name = some i ↔
      defs[i]?.map Definition.name = some name := by
  constructor
  · intro hPlace
    rcases of_place?_eq_some hPlace with ⟨d, hGet, rfl⟩
    rw [hGet, Option.map_some]
  · intro hName
    rcases Option.map_eq_some_iff.mp hName with ⟨d, hGet, rfl⟩
    exact hDefs.place?_eq_some hGet

/- Places of names that are defined are listed in the order of the names. -/
theorem Consistent.forall₂_place_iff
    (hDefs : Consistent defs)
    {is : List Nat}
    {names : List String}
    (hKnown : ∀ name ∈ names, name ∈ defs.map Definition.name) :
    List.Forall₂
        (fun i name => defs[i]?.map Definition.name = some name) is names ↔
      is = names.filterMap (place? defs) := by
  induction names generalizing is with
  | nil => simp
  | cons name names ih =>
      rcases List.forall_mem_cons.mp hKnown with ⟨hFirst, hRest⟩
      rcases Option.isSome_iff_exists.mp (place?_isSome_iff.mpr hFirst) with
        ⟨i, hPlace⟩
      rw [List.filterMap_cons_some hPlace, List.forall₂_cons_right_iff]
      constructor
      · rintro ⟨j, js, hJ, hJs, rfl⟩
        have hSame := hPlace.symm.trans (hDefs.place?_eq_some_iff.mpr hJ)
        rw [Option.some.inj hSame, (ih hRest).mp hJs]
      · rintro rfl
        exact ⟨i, _, hDefs.place?_eq_some_iff.mp hPlace, (ih hRest).mpr rfl,
          rfl⟩

end Definition

namespace Graph

/- Consistent definitions are realized by their graph only. -/
theorem realizes_iff
    {g : Graph}
    {defs : List Definition}
    (hDefs : Definition.Consistent defs) :
    g.Realizes defs ↔ g = ofDefinitions defs := by
  have hNode :
      ∀ d ∈ defs, ∀ n : Node,
        (n.name = d.name ∧ n.op = d.op ∧
          List.Forall₂
            (fun i name => defs[i]?.map Definition.name = some name)
            n.operands d.operands) ↔
          n = Definition.node defs d := by
    intro d hMem n
    rw [hDefs.forall₂_place_iff (hDefs.known d hMem)]
    rcases n with ⟨name, op, operands⟩
    simp [Definition.node]
  have hNodes :
      g.Realizes defs ↔
        List.Forall₂ (fun n d => n = Definition.node defs d)
          g.nodes defs := by
    unfold Realizes
    rw [List.forall₂_iff_get, List.forall₂_iff_get]
    refine and_congr_right (fun _ => forall_congr' (fun i =>
      forall_congr' (fun _ => forall_congr' (fun h => ?_))))
    exact hNode _ (List.get_mem defs ⟨i, h⟩) _
  rw [hNodes]
  rcases g with ⟨nodes⟩
  rw [ofDefinitions, Graph.mk.injEq]
  constructor
  · intro hAll
    exact (List.forall₂_eq_eq_eq ▸ List.forall₂_map_right_iff.mpr hAll :)
  · rintro rfl
    exact List.forall₂_map_left_iff.mpr
      (List.forall₂_same.mpr (fun _ _ => rfl))

/-
  A text is read exactly if its lines are definitions of the
  grammar that are consistent. The graph has a node for each
  line, in the order of the lines.
-/
theorem parse_accepts_grammar (text : String) :
    ((∃ g, Graph.parse text = .ok g) ↔ ∃ defs, Spells text defs) ∧
      ∀ g, Graph.parse text = .ok g ↔
        ∃ defs, Spells text defs ∧ g.Realizes defs := by
  have hEach :
      ∀ g, Graph.parse text = .ok g ↔
        ∃ defs, Spells text defs ∧ g.Realizes defs := by
    intro g
    rw [parse_eq_ok_iff_spells]
    refine exists_congr (fun defs => and_congr_right (fun hSpells => ?_))
    exact (realizes_iff hSpells.consistent).symm
  refine ⟨?_, hEach⟩
  constructor
  · rintro ⟨g, hParse⟩
    rcases (hEach g).mp hParse with ⟨defs, hSpells, -⟩
    exact ⟨defs, hSpells⟩
  · rintro ⟨defs, hSpells⟩
    exact ⟨ofDefinitions defs,
      parse_eq_ok_iff_spells.mpr ⟨defs, hSpells, rfl⟩⟩

end Graph

end Systolic
