import Mathlib.Data.List.Nodup
import Systolic.Output.Header
import Systolic.Proofs.Instruction.Canonical
import Systolic.Proofs.Output.Names
import Systolic.Proofs.Text.Words

/-
  This file proves that a header defines no macro twice, and that
  the look-up of a macro gives the value that was written. The
  word after `TCU_` tells what a macro is about, so only macros
  about the same thing can be the same. Those have different
  names in front of their endings.

  Key definitions include:
    * `definedMacros`
    * `HeaderLine.Sound`

  Key theorems include:
    * `defined_headerLines`
    * `nodup_macros`
    * `sound_headerLines`
    * `renderHeader_unambiguous`
-/

namespace Systolic

------------------------------------------------------------
-- Lines of a Header
------------------------------------------------------------

/- The macro that a line defines, with or without a value. -/
def definedName? (line : List Char) : Option (List Char) :=
  (afterPrefix? "#define ".toList line).map
    (fun cs => cs.takeWhile (fun c => c ≠ ' '))

/- The macros that a text defines, in the order of its lines. -/
def definedMacros (text : String) : List String :=
  (lines text.toList).filterMap (fun line => (definedName? line).map String.ofList)

theorem afterPrefix?_append
    (ps cs : List Char) :
    afterPrefix? ps (ps ++ cs) = some cs := by
  induction ps with
  | nil => cases cs <;> rfl
  | cons p ps ih => simpa [afterPrefix?] using ih

/- A line that starts as a comment defines nothing. -/
theorem afterPrefix?_comment
    {cs : List Char}
    (hComment : cs.head? = some '/') :
    afterPrefix? "#define ".toList cs = none := by
  rcases List.head?_eq_some_iff.mp hComment with ⟨rest, rfl⟩
  rfl

/- What stands before the first occurrence of a character. -/
theorem takeWhile_ne_append
    {c : Char}
    {cs : List Char}
    (hNone : c ∉ cs)
    (rest : List Char) :
    (cs ++ c :: rest).takeWhile (fun d => d ≠ c) = cs := by
  rw [List.takeWhile_append_of_pos, List.takeWhile_cons_of_neg (by simp),
    List.append_nil]
  intro d hMem
  apply decide_eq_true
  rintro rfl
  exact hNone hMem

theorem splitSpace?_append
    {key : List Char}
    (hKey : ' ' ∉ key)
    (value : List Char) :
    splitSpace? (key ++ ' ' :: value) = some (key, value) := by
  induction key with
  | nil => rfl
  | cons c key ih =>
      rw [List.mem_cons, not_or] at hKey
      simp [splitSpace?, ih hKey.2, Ne.symm hKey.1]

namespace HeaderLine

/-
  A line that is one line of the text, and that defines a macro
  with a value only if it is meant to.
-/
def Sound : HeaderLine → Prop
| plain text => IsLine text.toList ∧ definition? text.toList = none
| define name value => IsWord name.toList ∧ IsLine value.toList

instance (l : HeaderLine) : Decidable l.Sound :=
  match l with
  | plain text =>
      inferInstanceAs
        (Decidable (IsLine text.toList ∧ definition? text.toList = none))
  | define name value =>
      inferInstanceAs (Decidable (IsWord name.toList ∧ IsLine value.toList))

/- The macro of a line. -/
def defined? : HeaderLine → Option String
| plain text => (definedName? text.toList).map String.ofList
| define name _ => some name

theorem toList_define
    (name value : String) :
    (define name value).text.toList =
      "#define ".toList ++ (name.toList ++ ' ' :: value.toList) := by
  simp [text]

theorem space_not_mem
    {name : String}
    (hWord : IsWord name.toList) :
    ' ' ∉ name.toList := by
  intro hMem
  cases hWord ' ' hMem

theorem definition?_define
    {name : String}
    (hWord : IsWord name.toList)
    (value : String) :
    definition? (define name value).text.toList =
      some (name.toList, value.toList) := by
  rw [toList_define, definition?, afterPrefix?_append, Option.bind_some,
    splitSpace?_append (space_not_mem hWord)]

/- The macro of a sound line can be read off its text. -/
theorem Sound.definedName?_text
    {l : HeaderLine}
    (hSound : l.Sound) :
    (definedName? l.text.toList).map String.ofList = l.defined? := by
  cases l with
  | plain text => rfl
  | define name value =>
      rw [toList_define, definedName?, afterPrefix?_append,
        Option.map_some, Option.map_some,
        takeWhile_ne_append (space_not_mem hSound.1), String.ofList_toList]
      rfl

theorem Sound.isLine_text
    {l : HeaderLine}
    (hSound : l.Sound) :
    IsLine l.text.toList := by
  cases l with
  | plain text => exact hSound.1
  | define name value =>
      rw [toList_define, isLine_append, isLine_append]
      refine ⟨by decide, hSound.1.isLine, ?_⟩
      rw [← List.singleton_append, isLine_append]
      exact ⟨by decide, hSound.2⟩

end HeaderLine

section Lines

variable {ls : List HeaderLine}

theorem lines_of_sound
    (hSound : ∀ l ∈ ls, l.Sound) :
    lines (unlines (ls.map (·.text))).toList =
      ls.map (fun l => l.text.toList) := by
  rw [lines_unlines, List.map_map]
  · rfl
  · rw [List.forall_mem_map]
    exact fun l hMem => (hSound l hMem).isLine_text

/- The macros of a text are those of its lines. -/
theorem definedMacros_of_sound
    (hSound : ∀ l ∈ ls, l.Sound) :
    definedMacros (unlines (ls.map (·.text))) =
      ls.filterMap (·.defined?) := by
  rw [definedMacros, lines_of_sound hSound, List.filterMap_map]
  apply List.filterMap_congr
  intro l hMem
  exact (hSound l hMem).definedName?_text

/- A macro that is defined once has the value of its line. -/
theorem defineValue?_of_mem
    {name value : String}
    (hSound : ∀ l ∈ ls, l.Sound)
    (hNodup : (ls.filterMap (·.defined?)).Nodup)
    (hMem : .define name value ∈ ls) :
    defineValue? (unlines (ls.map (·.text))) name = some value := by
  rw [defineValue?, lines_of_sound hSound]
  induction ls with
  | nil => cases hMem
  | cons l ls ih =>
      rcases List.forall_mem_cons.mp hSound with ⟨hFirst, hRest⟩
      rw [List.map_cons, List.findSome?_cons]
      cases l with
      | plain text =>
          have hLater : .define name value ∈ ls := by
            rcases List.mem_cons.mp hMem with hSame | hLater
            · cases hSame
            · exact hLater
          have hNone : definition? (HeaderLine.plain text).text.toList = none :=
            hFirst.2
          rw [hNone]
          refine ih hRest ?_ hLater
          exact hNodup.sublist ((List.sublist_cons_self _ _).filterMap _)
      | define other value' =>
          change (other :: ls.filterMap (·.defined?)).Nodup at hNodup
          rw [List.nodup_cons] at hNodup
          rw [HeaderLine.definition?_define hFirst.1]
          rcases List.mem_cons.mp hMem with hSame | hLater
          · cases hSame
            simp
          · have hOther : other ≠ name := by
              rintro rfl
              exact hNodup.1 (List.mem_filterMap.mpr ⟨_, hLater, rfl⟩)
            have hKeys : other.toList ≠ name.toList :=
              fun hSame => hOther (String.toList_injective hSame)
            simp only [Option.bind_some, hKeys, if_false]
            exact ih hRest hNodup.2 hLater

end Lines

------------------------------------------------------------
-- Macro Names
------------------------------------------------------------

theorem isBlank_identifierChar (c : Char) :
    isBlank (identifierChar c) = false := by
  by_cases hAlphanum : c.isAlphanum = true
  · have hName : isNameChar c = true := by simp [isNameChar, hAlphanum]
    have hAscii : ∀ n < 0x80, isBlank (identifierChar (Char.ofNat n)) = false := by
      decide +kernel
    rw [← Char.ofNat_toNat c]
    exact hAscii c.toNat (toNat_of_isNameChar hName).2
  · rw [identifierChar, if_neg hAlphanum]
    decide

theorem isWord_identifier (name : String) :
    IsWord (identifier name).toList := by
  intro c hMem
  rw [identifier, String.toList_ofList] at hMem
  split at hMem
  case isTrue =>
    rcases List.mem_cons.mp hMem with rfl | hLater
    · decide
    · rcases List.mem_map.mp hLater with ⟨d, -, rfl⟩
      exact isBlank_identifierChar d
  case isFalse =>
    rcases List.mem_map.mp hMem with ⟨d, -, rfl⟩
    exact isBlank_identifierChar d

/- The part of a macro name between its first two underscores. -/
def stem (name : String) : String :=
  String.ofList ((name.toList.drop 4).takeWhile (fun c => c ≠ '_'))

theorem stem_qualified
    {part : String}
    (hPart : '_' ∉ part.toList)
    (rest : String) :
    stem ("TCU_" ++ part ++ "_" ++ rest) = part := by
  have hDrop :
      ("TCU_" ++ part ++ "_" ++ rest).toList.drop 4 =
        part.toList ++ '_' :: rest.toList := by
    simp
  rw [stem, hDrop, takeWhile_ne_append hPart, String.ofList_toList]

/-
  Different names with different endings are different, if the
  endings are known from their last characters.
-/
theorem nodup_flatMap_append
    {names endings : List String}
    (hNames : names.Nodup)
    (hEmpty : "" ∉ endings)
    (hEndings : (endings.map (fun e => e.toList.getLast?)).Nodup) :
    (names.flatMap (fun name => endings.map (name ++ ·))).Nodup := by
  have hFull : ∀ {e}, e ∈ endings → e.toList ≠ [] := by
    intro e hMem hNil
    apply hEmpty
    rwa [← String.toList_eq_nil_iff.mp hNil]
  rw [List.nodup_flatMap]
  constructor
  · intro name _
    refine (List.Nodup.of_map _ hEndings).map ?_
    intro e e' hSame
    exact (String.append_right_inj name).mp hSame
  · refine hNames.imp ?_
    intro name other hOther whole hFirst hSecond
    rcases List.mem_map.mp hFirst with ⟨e, hMem, rfl⟩
    rcases List.mem_map.mp hSecond with ⟨e', hMem', hSame⟩
    have hLast : e.toList.getLast? = e'.toList.getLast? := by
      have hLasts := congrArg (fun s => s.toList.getLast?) hSame
      simp only [String.toList_append] at hLasts
      rw [List.getLast?_append_of_ne_nil _ (hFull hMem'),
        List.getLast?_append_of_ne_nil _ (hFull hMem)] at hLasts
      exact hLasts.symm
    have hEnding := List.inj_on_of_nodup_map hEndings hMem hMem' hLast
    rw [hEnding] at hSame
    exact hOther ((String.append_left_inj e').mp hSame).symm

------------------------------------------------------------
-- Macros of a Header
------------------------------------------------------------

/- The macros that every header defines. -/
def generalMacros : List String :=
  [ "TCU_PROGRAM_H", "TCU_FINGERPRINT", "TCU_DATA_TYPE", "TCU_DATA_WIDTH",
    "TCU_DATA_FRACTIONAL_BITS", "TCU_ARRAY_SIZE", "TCU_LOCAL_DEPTH",
    "TCU_ACCUMULATOR_DEPTH", "TCU_DRAM0_DEPTH", "TCU_DRAM1_DEPTH",
    "TCU_DRAM_BUS_WIDTH", "TCU_INSTRUCTION_BITS", "TCU_INSTRUCTION_BYTES",
    "TCU_INSTRUCTION_COUNT" ]

/- The macro of an opcode. -/
def opcodeMacro (op : Opcode) : String :=
  "TCU_OPCODE_" ++ identifier op.mnemonic

/- The macro names of a field, without their endings. -/
def fieldBase
    (op : Opcode)
    (name : FieldName) : String :=
  "TCU_" ++ identifier op.mnemonic ++ "_" ++ identifier name.text

/- The names of the fields that are not reserved. -/
def usedNames
    (w : WordLayout)
    (op : Opcode) : List FieldName :=
  ((w.fields op).filter (fun f => ¬ f.IsReserved)).map Field.name

/- The macros about the fields of one kind of instruction. -/
def fieldMacros
    (w : WordLayout)
    (op : Opcode) : List String :=
  ((usedNames w op).map (fieldBase op)).flatMap
    (fun base => ["_OFFSET", "_WIDTH"].map (base ++ ·))

/- The macros about the kinds of instruction. -/
def kindMacros (w : WordLayout) : List String :=
  Opcode.all.flatMap (fun op => opcodeMacro op :: fieldMacros w op)

/- The macros about the tensors in DRAM. -/
def hostMacros (host : List HostTensor) : List String :=
  (hostNames [] host).flatMap
    (fun name => ["_BANK", "_ADDRESS", "_DEPTH"].map (name ++ ·))

/- What the macros about kinds of instruction are named after. -/
def kindStems : List String :=
  "OPCODE" :: Opcode.all.map (fun op => identifier op.mnemonic)

/- What the macros about tensors are named after. -/
def hostStems : List String :=
  ["INPUT", "CONST", "OUTPUT"]

section Macros

variable (w : WordLayout)
variable (host : List HostTensor)
variable {name : String}

theorem defined?_comment
    {text : String}
    (hComment : text.toList.head? = some '/') :
    (HeaderLine.plain text).defined? = none := by
  rw [HeaderLine.defined?, definedName?, afterPrefix?_comment hComment]
  rfl

/- Titles define nothing. -/
theorem defined_title (text : String) :
    (HeaderLine.title text).filterMap (·.defined?) = [] := by
  have hTitle : (HeaderLine.plain s!"/* {text} */").defined? = none := by
    apply defined?_comment
    change ("/* " ++ text ++ " */").toList.head? = some '/'
    simp
  rw [HeaderLine.title, List.filterMap_cons_none rfl,
    List.filterMap_cons_none hTitle, List.filterMap_nil]

theorem defined_opcodeLines (op : Opcode) :
    (opcodeLines w op).filterMap (·.defined?) =
      opcodeMacro op :: fieldMacros w op := by
  have hField :
      ∀ f, (fieldLines op f).filterMap (·.defined?) =
        ["_OFFSET", "_WIDTH"].map (fieldBase op f.name ++ ·) := by
    intro f
    rfl
  rw [opcodeLines, List.filterMap_append, List.filterMap_append,
    defined_title, List.filterMap_flatMap, fieldMacros, usedNames,
    List.map_map, List.flatMap_map]
  simp only [hField]
  rfl

theorem defined_placementLines :
    (placementLines host).filterMap (·.defined?) = hostMacros host := by
  cases host with
  | nil => rfl
  | cons t ts =>
      have hNames :
          ((hostNames [] (t :: ts)).zip (t :: ts)).map Prod.fst =
            hostNames [] (t :: ts) := by
        apply List.map_fst_zip
        rw [length_hostNames]
      change (HeaderLine.title "DRAM placement" ++
        ((hostNames [] (t :: ts)).zip (t :: ts)).flatMap
          (fun p => hostLines p.1 p.2)).filterMap _ = _
      rw [List.filterMap_append, defined_title, List.nil_append]
      calc
        _ = ((hostNames [] (t :: ts)).zip (t :: ts)).flatMap
              (fun p => ["_BANK", "_ADDRESS", "_DEPTH"].map (p.1 ++ ·)) :=
          List.filterMap_flatMap
        _ = (((hostNames [] (t :: ts)).zip (t :: ts)).map Prod.fst).flatMap
              (fun name => ["_BANK", "_ADDRESS", "_DEPTH"].map (name ++ ·)) := by
          rw [List.flatMap_map]
        _ = hostMacros (t :: ts) := by rw [hNames, hostMacros]

/- The macros of a header are those of its three parts. -/
theorem defined_headerLines
    (fingerprint : String)
    (m : Machine)
    (instructions : Nat) :
    (headerLines fingerprint m w host instructions).filterMap (·.defined?) =
      generalMacros ++ kindMacros w ++ hostMacros host := by
  have hFirst :
      (HeaderLine.plain
        s!"/* Generated by tcuc for {m.text}. Do not edit. */").defined? = none := by
    apply defined?_comment
    change
      ("/* Generated by tcuc for " ++ m.text ++ ". Do not edit. */").toList.head? =
        some '/'
    simp
  have hMachine :
      (machineLines fingerprint m).filterMap (·.defined?) =
        (generalMacros.drop 1).take 10 := by
    rw [machineLines, List.filterMap_append, defined_title]
    rfl
  have hWord :
      (wordLines w instructions).filterMap (·.defined?) =
        generalMacros.drop 11 := by
    rw [wordLines, List.filterMap_append, defined_title]
    rfl
  have hLast :
      ([.plain "", .plain "#endif /* TCU_PROGRAM_H */"] :
        List HeaderLine).filterMap (·.defined?) = [] := by
    rfl
  rw [headerLines, List.filterMap_append, List.filterMap_append,
    List.filterMap_append, List.filterMap_append, List.filterMap_append,
    List.filterMap_cons_none hFirst, hMachine, hWord, hLast,
    List.filterMap_flatMap, defined_placementLines, List.append_nil]
  simp only [defined_opcodeLines]
  rfl

/- Macros are named after what they are about. -/
theorem stem_opcodeMacro (op : Opcode) :
    stem (opcodeMacro op) = "OPCODE" := by
  have hFront : "TCU_OPCODE_" = "TCU_" ++ "OPCODE" ++ "_" := by decide
  rw [opcodeMacro, hFront, stem_qualified (by decide)]

theorem stem_of_mem_fieldMacros
    {op : Opcode}
    (hMem : name ∈ fieldMacros w op) :
    stem name = identifier op.mnemonic := by
  rcases List.mem_flatMap.mp hMem with ⟨base, hBase, hName⟩
  rcases List.mem_map.mp hBase with ⟨field, -, rfl⟩
  rcases List.mem_map.mp hName with ⟨ending, -, rfl⟩
  rw [fieldBase, String.append_assoc, stem_qualified]
  cases op <;> decide

theorem stem_of_mem_kindMacros
    (hMem : name ∈ kindMacros w) :
    stem name ∈ kindStems := by
  rcases List.mem_flatMap.mp hMem with ⟨op, hAll, hName⟩
  rcases List.mem_cons.mp hName with rfl | hField
  · rw [stem_opcodeMacro]
    exact List.mem_cons_self
  · rw [stem_of_mem_fieldMacros w hField]
    apply List.mem_cons_of_mem
    exact List.mem_map_of_mem hAll

theorem stem_of_mem_hostMacros
    (hMem : name ∈ hostMacros host) :
    stem name ∈ hostStems := by
  rcases List.mem_flatMap.mp hMem with ⟨base, hBase, hName⟩
  rcases List.mem_map.mp hName with ⟨ending, -, rfl⟩
  rcases exists_candidate_of_mem_hostNames hBase with ⟨t, -, k, rfl⟩
  rcases exists_candidate_eq_append (hostBase t) k with ⟨number, -, hName⟩
  rw [hName, hostBase, String.append_assoc, String.append_assoc, stem_qualified]
  · cases t.kind <;> decide
  · cases t.kind <;> decide

namespace WordLayout

/- A reserved part adds no field that is not reserved. -/
theorem filter_place_reserved
    (offset width : Nat)
    (parts : List (FieldName × Nat)) :
    (place offset ((.reserved, width) :: parts)).filter (fun f => ¬ f.IsReserved) =
      (place (offset + width) parts).filter (fun f => ¬ f.IsReserved) := by
  rw [place]
  by_cases hWidth : width = 0
  · rw [if_pos hWidth]
  · rw [if_neg hWidth]
    cases place (offset + width) parts with
    | nil => rfl
    | cons f fs =>
        by_cases hReserved : f.name = .reserved
        · simp [Field.IsReserved, hReserved]
        · simp [Field.IsReserved, hReserved]

/- Each part becomes at most one field of its name. -/
theorem names_place_sublist
    (offset : Nat)
    (parts : List (FieldName × Nat)) :
    (((place offset parts).filter (fun f => ¬ f.IsReserved)).map Field.name).Sublist
      ((parts.map Prod.fst).filter (fun name => name ≠ .reserved)) := by
  induction parts generalizing offset with
  | nil => exact List.Sublist.refl _
  | cons part parts ih =>
      rcases part with ⟨name, width⟩
      have hRest := ih (offset + width)
      rw [List.map_cons]
      by_cases hName : name = .reserved
      · subst hName
        rw [filter_place_reserved]
        exact hRest
      · rw [List.filter_cons_of_pos (by simp [hName])]
        by_cases hWidth : width = 0
        · rw [place, if_pos hWidth]
          exact hRest.cons name
        · rw [place_named hName hWidth,
            List.filter_cons_of_pos (by simp [Field.IsReserved, hName])]
          exact hRest.cons_cons name

end WordLayout

theorem nodup_usedNames (op : Opcode) :
    (usedNames w op).Nodup := by
  refine List.Nodup.sublist (WordLayout.names_place_sublist _ _) ?_
  change ([(WordLayout.slotNames op).1, (WordLayout.slotNames op).2.1,
    (WordLayout.slotNames op).2.2, .reserved, .flags, .opcode].filter
      (fun name => name ≠ FieldName.reserved)).Nodup
  cases op <;> decide

theorem fieldBase_injective (op : Opcode) :
    Function.Injective (fieldBase op) := by
  intro name other hSame
  have hTexts : identifier name.text = identifier other.text :=
    (String.append_right_inj _).mp hSame
  revert hTexts
  cases name <;> cases other <;> decide

theorem nodup_fieldMacros (op : Opcode) :
    (fieldMacros w op).Nodup := by
  apply nodup_flatMap_append
  · exact (nodup_usedNames w op).map (fieldBase_injective op)
  · decide
  · decide

theorem nodup_hostMacros :
    (hostMacros host).Nodup := by
  apply nodup_flatMap_append
  · exact nodup_hostNames
  · decide
  · decide

theorem mnemonic_injective
    {op other : Opcode}
    (hSame : identifier op.mnemonic = identifier other.mnemonic) :
    op = other := by
  revert hSame
  cases op <;> cases other <;> decide

theorem opcodeMacro_not_mem_fieldMacros
    (op other : Opcode) :
    opcodeMacro op ∉ fieldMacros w other := by
  intro hField
  have hStem := stem_of_mem_fieldMacros w hField
  rw [stem_opcodeMacro] at hStem
  revert hStem
  cases other <;> decide

theorem nodup_kindMacros :
    (kindMacros w).Nodup := by
  rw [kindMacros, List.nodup_flatMap]
  constructor
  · intro op _
    apply List.nodup_cons.mpr
    exact ⟨opcodeMacro_not_mem_fieldMacros w op op, nodup_fieldMacros w op⟩
  · have hAll : Opcode.all.Nodup := by decide
    refine hAll.imp ?_
    intro op other hOther name hFirst hSecond
    -- A macro is that of an opcode or bears the name of its kind.
    rcases List.mem_cons.mp hFirst with hOpcode | hField
    · rcases List.mem_cons.mp hSecond with hOpcode' | hField'
      · apply hOther
        apply mnemonic_injective
        exact (String.append_right_inj _).mp (hOpcode.symm.trans hOpcode')
      · rw [hOpcode] at hField'
        exact opcodeMacro_not_mem_fieldMacros w op other hField'
    · rcases List.mem_cons.mp hSecond with hOpcode' | hField'
      · rw [hOpcode'] at hField
        exact opcodeMacro_not_mem_fieldMacros w other op hField
      · apply hOther
        apply mnemonic_injective
        rw [← stem_of_mem_fieldMacros w hField, stem_of_mem_fieldMacros w hField']

/- No macro of a header is defined twice. -/
theorem nodup_macros :
    (generalMacros ++ kindMacros w ++ hostMacros host).Nodup := by
  have hGeneral : generalMacros.Nodup := by decide +kernel
  have hStems :
      ∀ name ∈ generalMacros,
        stem name ∉ kindStems ∧ stem name ∉ hostStems := by
    decide +kernel
  have hApart : ∀ part ∈ kindStems, part ∉ hostStems := by decide +kernel
  rw [List.nodup_append, List.nodup_append]
  refine ⟨⟨hGeneral, nodup_kindMacros w, ?_⟩, nodup_hostMacros host, ?_⟩
  · rintro name hName other hOther rfl
    exact (hStems name hName).1 (stem_of_mem_kindMacros w hOther)
  · rintro name hName other hOther rfl
    have hHost := stem_of_mem_hostMacros host hOther
    rcases List.mem_append.mp hName with hFirst | hKind
    · exact (hStems name hFirst).2 hHost
    · exact hApart _ (stem_of_mem_kindMacros w hKind) hHost

end Macros

------------------------------------------------------------
-- Soundness of the Lines
------------------------------------------------------------

theorem isLine_toString (n : Nat) :
    IsLine (toString n).toList :=
  (isWord_toString n).isLine

theorem Machine.isLine_text (m : Machine) :
    IsLine m.text.toList := by
  have hFormat : IsLine (toString m.format.name).toList := by
    cases m.format <;> decide
  simp only [Machine.text, String.toList_append, isLine_append,
    hFormat, isLine_toString]
  decide

section Soundness

variable {w : WordLayout}
variable {host : List HostTensor}
variable {name : String}

/- A text that is written out as a word, character by character. -/
theorem isWord_ofList
    {cs : List Char}
    (hNames : cs.all isNameChar = true) :
    IsWord (String.ofList cs).toList := by
  rw [String.toList_ofList]
  intro c hMem
  exact isBlank_of_isNameChar (List.all_eq_true.mp hNames c hMem)

theorem sound_comment
    {text : String}
    (hLine : IsLine text.toList)
    (hComment : text.toList.head? = some '/') :
    (HeaderLine.plain text).Sound := by
  refine ⟨hLine, ?_⟩
  rw [definition?, afterPrefix?_comment hComment]
  rfl

theorem sound_number
    (hWord : IsWord name.toList)
    (value : Nat) :
    (HeaderLine.number name value).Sound :=
  ⟨hWord, isLine_toString value⟩

theorem sound_number_ofList
    {cs : List Char}
    (hNames : cs.all isNameChar = true)
    (value : Nat) :
    (HeaderLine.number (String.ofList cs) value).Sound :=
  sound_number (isWord_ofList hNames) value

theorem sound_number_append
    {base : String}
    {cs : List Char}
    (hBase : IsWord base.toList)
    (hNames : cs.all isNameChar = true)
    (value : Nat) :
    (HeaderLine.number (base ++ String.ofList cs) value).Sound := by
  apply sound_number
  rw [String.toList_append, isWord_append]
  exact ⟨hBase, isWord_ofList hNames⟩

theorem sound_quoted
    {value : String}
    (hWord : IsWord name.toList)
    (hLine : IsLine value.toList) :
    (HeaderLine.quoted name value).Sound := by
  refine ⟨hWord, ?_⟩
  rw [String.toList_append, String.toList_append, isLine_append, isLine_append]
  exact ⟨⟨by decide, hLine⟩, by decide⟩

theorem sound_title
    {text : String}
    (hLine : IsLine text.toList) :
    ∀ l ∈ HeaderLine.title text, l.Sound := by
  have hTitle : (HeaderLine.plain ("/* " ++ text ++ " */")).Sound := by
    apply sound_comment
    · rw [String.toList_append, String.toList_append, isLine_append, isLine_append]
      exact ⟨⟨by decide, hLine⟩, by decide⟩
    · simp
  refine List.forall_mem_cons.mpr ⟨by decide, ?_⟩
  exact List.forall_mem_singleton.mpr hTitle

theorem sound_machineLines
    {fingerprint : String}
    (hFingerprint : IsLine fingerprint.toList)
    (m : Machine) :
    ∀ l ∈ machineLines fingerprint m, l.Sound := by
  have hFormat : IsLine m.format.name.toList := by
    cases m.format <;> decide
  refine List.forall_mem_append.mpr ⟨sound_title (by decide), ?_⟩
  simp only [List.forall_mem_cons]
  exact ⟨sound_quoted (isWord_ofList (by decide)) hFingerprint,
    sound_quoted (isWord_ofList (by decide)) hFormat,
    sound_number_ofList (by decide) _, sound_number_ofList (by decide) _,
    sound_number_ofList (by decide) _, sound_number_ofList (by decide) _,
    sound_number_ofList (by decide) _, sound_number_ofList (by decide) _,
    sound_number_ofList (by decide) _, sound_number_ofList (by decide) _,
    List.forall_mem_nil _⟩

theorem sound_wordLines
    (w : WordLayout)
    (instructions : Nat) :
    ∀ l ∈ wordLines w instructions, l.Sound := by
  refine List.forall_mem_append.mpr ⟨sound_title (by decide), ?_⟩
  simp only [List.forall_mem_cons]
  exact ⟨sound_number_ofList (by decide) _, sound_number_ofList (by decide) _,
    sound_number_ofList (by decide) _, List.forall_mem_nil _⟩

theorem isWord_fieldBase
    (op : Opcode)
    (name : FieldName) :
    IsWord (fieldBase op name).toList := by
  simp only [fieldBase, String.toList_append, isWord_append, isWord_identifier]
  decide

theorem isWord_of_mem_hostNames
    (hMem : name ∈ hostNames [] host) :
    IsWord name.toList := by
  rcases exists_candidate_of_mem_hostNames hMem with ⟨t, -, k, rfl⟩
  rcases exists_candidate_eq_append (hostBase t) k with ⟨number, hNumber, hName⟩
  have hTag : IsWord t.kind.tag.toList := by
    cases t.kind <;> decide
  rw [hName]
  simp only [hostBase, String.toList_append, isWord_append,
    isWord_identifier, hTag, hNumber]
  decide

theorem sound_fieldLines
    (op : Opcode)
    (f : Field) :
    ∀ l ∈ fieldLines op f, l.Sound := by
  have hBase := isWord_fieldBase op f.name
  simp only [fieldLines, List.forall_mem_cons]
  exact ⟨sound_number_append hBase (by decide) _,
    sound_number_append hBase (by decide) _, List.forall_mem_nil _⟩

theorem sound_hostLines
    (hName : IsWord name.toList)
    (t : HostTensor) :
    ∀ l ∈ hostLines name t, l.Sound := by
  simp only [hostLines, List.forall_mem_cons]
  exact ⟨sound_number_append hName (by decide) _,
    sound_number_append hName (by decide) _,
    sound_number_append hName (by decide) _, List.forall_mem_nil _⟩

theorem sound_opcodeLines
    (w : WordLayout)
    (op : Opcode) :
    ∀ l ∈ opcodeLines w op, l.Sound := by
  simp only [opcodeLines, List.forall_mem_append, List.forall_mem_flatMap]
  refine ⟨⟨?_, ?_⟩, ?_⟩
  · apply sound_title
    cases op <;> decide
  · cases op <;> decide
  · intro f _
    exact sound_fieldLines op f

theorem sound_placementLines
    (host : List HostTensor) :
    ∀ l ∈ placementLines host, l.Sound := by
  cases host with
  | nil => exact List.forall_mem_nil _
  | cons t ts =>
      refine List.forall_mem_append.mpr ⟨sound_title (by decide), ?_⟩
      rw [List.forall_mem_flatMap]
      rintro ⟨name, s⟩ hPair
      apply sound_hostLines
      exact isWord_of_mem_hostNames (List.of_mem_zip hPair).1

theorem sound_headerLines
    {fingerprint : String}
    (hFingerprint : IsLine fingerprint.toList)
    (m : Machine)
    (w : WordLayout)
    (host : List HostTensor)
    (instructions : Nat) :
    ∀ l ∈ headerLines fingerprint m w host instructions, l.Sound := by
  have hFirst :
      (HeaderLine.plain
        ("/* Generated by tcuc for " ++ m.text ++ ". Do not edit. */")).Sound := by
    apply sound_comment
    · simp only [String.toList_append, isLine_append, m.isLine_text]
      decide
    · simp
  simp only [headerLines, List.forall_mem_append, List.forall_mem_flatMap]
  refine ⟨⟨⟨⟨⟨?_, ?_⟩, ?_⟩, ?_⟩, ?_⟩, by decide⟩
  · exact List.forall_mem_cons.mpr ⟨hFirst, by decide⟩
  · exact sound_machineLines hFingerprint m
  · exact sound_wordLines w instructions
  · intro op _
    exact sound_opcodeLines w op
  · exact sound_placementLines host

end Soundness

------------------------------------------------------------
-- Headers
------------------------------------------------------------

section Headers

variable {fingerprint : String}
variable {m : Machine}
variable {w : WordLayout}
variable {host : List HostTensor}
variable {instructions : Nat}

theorem fieldLines_subset
    {op : Opcode}
    {f : Field}
    (hField : f ∈ w.fields op)
    (hUsed : ¬ f.IsReserved) :
    fieldLines op f ⊆ headerLines fingerprint m w host instructions := by
  intro l hMem
  have hOp : op ∈ Opcode.all := by
    cases op <;> decide
  have hKind : l ∈ opcodeLines w op := by
    apply List.mem_append_right
    apply List.mem_flatMap_of_mem _ hMem
    exact List.mem_filter.mpr ⟨hField, decide_eq_true hUsed⟩
  apply List.mem_append_left
  apply List.mem_append_left
  apply List.mem_append_right
  exact List.mem_flatMap_of_mem hOp hKind

theorem hostLines_subset
    {i : Nat}
    {t : HostTensor}
    {name : String}
    (hGet : host[i]? = some t)
    (hName : (hostNames [] host)[i]? = some name) :
    hostLines name t ⊆ headerLines fingerprint m w host instructions := by
  intro l hMem
  have hPair : (name, t) ∈ (hostNames [] host).zip host := by
    apply List.mem_of_getElem?
    exact List.getElem?_zip_eq_some.mpr ⟨hName, hGet⟩
  have hPlacement : l ∈ placementLines host := by
    cases host with
    | nil => cases hGet
    | cons s host =>
        apply List.mem_append_right
        exact List.mem_flatMap_of_mem hPair hMem
  apply List.mem_append_left
  apply List.mem_append_right
  exact hPlacement

theorem defineValue?_renderHeader
    (hFingerprint : IsLine fingerprint.toList)
    {name value : String}
    (hMem : .define name value ∈ headerLines fingerprint m w host instructions) :
    defineValue? (renderHeader fingerprint m w host instructions) name =
      some value := by
  refine defineValue?_of_mem ?_ ?_ hMem
  · exact sound_headerLines hFingerprint m w host instructions
  · rw [defined_headerLines]
    exact nodup_macros w host

end Headers

/-
  A header is unambiguous. No macro is defined twice, the offset
  and the width of every field that is not reserved are found
  under the names of its kind and of itself, and the tensors have
  different names under which their places and depths are found.
  The name of the machine's parameters may be any text on one
  line, such as a number in base sixteen.
-/
theorem renderHeader_unambiguous
    {fingerprint : String}
    (hFingerprint : IsLine fingerprint.toList)
    (m : Machine)
    (w : WordLayout)
    (host : List HostTensor)
    (instructions : Nat) :
    let header := renderHeader fingerprint m w host instructions
    (definedMacros header).Nodup ∧
      (∀ op, ∀ f ∈ w.fields op, ¬ f.IsReserved →
        defineValue? header (fieldBase op f.name ++ "_OFFSET") =
            some (toString f.offset) ∧
          defineValue? header (fieldBase op f.name ++ "_WIDTH") =
            some (toString f.width)) ∧
      ∃ names, Assigns host names ∧
        ∀ (i : Nat) (t : HostTensor) (name : String),
          host[i]? = some t → names[i]? = some name →
          defineValue? header (name ++ "_BANK") =
              some (toString t.location.bank.index) ∧
            defineValue? header (name ++ "_ADDRESS") =
              some (toString t.location.address) ∧
            defineValue? header (name ++ "_DEPTH") =
              some (toString t.depth) := by
  intro header
  refine ⟨?_, ?_, hostNames [] host, assigns_hostNames host, ?_⟩
  · have hSound := sound_headerLines hFingerprint m w host instructions
    have hMacros : definedMacros header = _ := definedMacros_of_sound hSound
    rw [hMacros, defined_headerLines]
    exact nodup_macros w host
  · intro op f hField hUsed
    constructor
    · apply defineValue?_renderHeader hFingerprint
      apply fieldLines_subset hField hUsed
      exact List.mem_cons_self
    · apply defineValue?_renderHeader hFingerprint
      apply fieldLines_subset hField hUsed
      exact List.mem_cons_of_mem _ List.mem_cons_self
  · intro i t name hGet hName
    refine ⟨?_, ?_, ?_⟩
    · apply defineValue?_renderHeader hFingerprint
      apply hostLines_subset hGet hName
      exact List.mem_cons_self
    · apply defineValue?_renderHeader hFingerprint
      apply hostLines_subset hGet hName
      exact List.mem_cons_of_mem _ List.mem_cons_self
    · apply defineValue?_renderHeader hFingerprint
      apply hostLines_subset hGet hName
      exact List.mem_cons_of_mem _ (List.mem_cons_of_mem _ List.mem_cons_self)

/- Three tensors, where two names differ in case and one ends in a number. -/
def foldedTensors : List HostTensor :=
  [ { name := "a", kind := .input, location := { bank := .dram0, address := 0 },
      shape := [8], depth := 1 },
    { name := "A", kind := .input, location := { bank := .dram0, address := 1 },
      shape := [2, 8], depth := 2 },
    { name := "a_2", kind := .input, location := { bank := .dram0, address := 3 },
      shape := [8], depth := 1 } ]

theorem renderHeader_unambiguous_folded :
    IsLine "5d8f03".toList ∧
      hostNames [] foldedTensors =
        ["TCU_INPUT_A", "TCU_INPUT_A_2", "TCU_INPUT_A_2_2"] ∧
      let header :=
        renderHeader "5d8f03" .standard
          { slot0 := 11, slot1 := 20, slot2 := 11, wordBits := 56 }
          foldedTensors 7
      (definedMacros header).Nodup ∧
        ∃ names, Assigns foldedTensors names ∧
          ∀ (i : Nat) (t : HostTensor) (name : String),
            foldedTensors[i]? = some t → names[i]? = some name →
              defineValue? header (name ++ "_ADDRESS") =
                some (toString t.location.address) := by
  have hLine : IsLine "5d8f03".toList := by decide
  refine ⟨hLine, by decide +kernel, ?_⟩
  rcases renderHeader_unambiguous hLine .standard
      { slot0 := 11, slot1 := 20, slot2 := 11, wordBits := 56 }
      foldedTensors 7 with
    ⟨hNodup, -, names, hAssigns, hValues⟩
  refine ⟨hNodup, names, hAssigns, ?_⟩
  intro i t name hGet hName
  exact (hValues i t name hGet hName).2.1

end Systolic
