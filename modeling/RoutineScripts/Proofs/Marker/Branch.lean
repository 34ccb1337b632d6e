import RoutineScripts.Proofs.Marker.Language

/-!
# The language of a body and the place of its marker

The language of a definition is read from the first language clause of its options, with comments
masked. The place of a marker line depends on whether the words `LANGUAGE plpgsql` stand anywhere in
the text. Among the options the words are a language clause with that name
(`Options.declaresPlpgsql_iff`), so the two agree unless the words stray (`Script.Strays`): to a
comment in front of the script, for instance. The main statement is `Marker.ensure_of_unmarked`.
-/

namespace RoutineScripts

/-! ### The language of the options -/

namespace Language

open Recogniser Text

/-- A name resolves to PL/pgSQL when it is that word in any letter case. -/
theorem resolve_eq_plpgsql_iff {name : Text} :
    resolve (some name) = plpgsql ↔ name.asciiLower = "plpgsql".toList := by
  constructor
  · intro resolved
    rw [resolve] at resolved
    split at resolved
    · cases resolved
    split at resolved
    · cases resolved
    split at resolved
    · cases resolved
    split at resolved
    · cases resolved
    split at resolved
    · assumption
    · cases resolved
  · intro lower
    have some : ¬ name.isEmpty = true := by
      rw [List.isEmpty_iff]
      rintro rfl
      cases lower
    rw [resolve, if_neg some, lower, if_neg (by decide), if_neg (by decide), if_neg (by decide),
      if_pos rfl]

/-- A character with a lower-case form in ASCII is in ASCII. -/
theorem toNat_lt_of_toLower {c : Char} (ascii : c.toLower.toNat < 128) : c.toNat < 128 := by
  by_cases upper : 'A'.val ≤ c.val ∧ c.val ≤ 'Z'.val
  · exact Nat.lt_of_le_of_lt (UInt32.le_iff_toNat_le.mp upper.2) (by decide)
  · have kept : c.toLower = c := dif_neg upper
    rwa [← kept]

/-- Among identifier characters, the forms of a letter are its two cases. -/
theorem isFormOf_iff {letter c : Char} (member : letter ∈ "PLPGSQL".toList) :
    c.toLower = letter.toLower ↔ isFormOf letter c = true ∧ isIdentifierChar c = true := by
  have lower : ∀ letter ∈ "PLPGSQL".toList, decide (letter.toLower.toNat < 128) = true :=
    List.all_eq_true.mp (by decide)
  have ascii := of_decide_eq_true (lower letter member)
  have checked : ∀ n < 128, "PLPGSQL".toList.all (fun letter => decide
      ((Char.ofNat n).toLower = letter.toLower ↔
        isFormOf letter (Char.ofNat n) = true ∧ isIdentifierChar (Char.ofNat n) = true)) =
          true := by
    decide +kernel
  have here (small : c.toNat < 128) :=
    of_decide_eq_true (List.all_eq_true.mp (checked c.toNat small) letter member)
  rw [Char.ofNat_toNat] at here
  constructor
  · intro lower
    exact (here (toNat_lt_of_toLower (by rwa [lower]))).mp lower
  · rintro ⟨form, identifier⟩
    exact (here (toNat_lt_of_isIdentifierChar identifier)).mpr ⟨form, identifier⟩

/-- A name is some letters of the word, up to letter case, when it spells them in ASCII. -/
theorem asciiLower_eq_iff {letters : List Char} (part : letters ⊆ "PLPGSQL".toList) {name : Text} :
    name.asciiLower = letters.map Char.toLower ↔
      Spells letters name ∧ ∀ c ∈ name, isIdentifierChar c = true := by
  induction letters generalizing name with
  | nil =>
      cases name with
      | nil => simp [asciiLower, Spells]
      | cons c name => simp [asciiLower, Spells]
  | cons letter letters ih =>
      cases name with
      | nil => simp [asciiLower, Spells]
      | cons c name =>
          have others := @ih (fun _ member => part (List.mem_cons_of_mem _ member)) name
          rw [asciiLower] at others ⊢
          rw [List.map_cons, List.map_cons, List.cons.injEq, others, Spells, List.forall_mem_cons,
            isFormOf_iff (part List.mem_cons_self)]
          simp only [and_assoc, and_left_comm]

/-- A name stands for `plpgsql` when it is spelled so in ASCII. -/
theorem resolve_eq_plpgsql {name : Text} :
    resolve (some name) = plpgsql ↔
      Spells "PLPGSQL".toList name ∧ ∀ c ∈ name, isIdentifierChar c = true := by
  rw [resolve_eq_plpgsql_iff, ← asciiLower_eq_iff fun _ member => member]
  rfl

end Language

namespace Options

open Recogniser Text Marker

/-- The name of a language is one between quotes, or the longest front of its characters. -/
theorem languageName?_eq_some_iff {text name : Text} :
    languageName? text = some name ↔
      (∃ rest, text = '"' :: name ++ '"' :: rest ∧ name ≠ [] ∧ '"' ∉ name) ∨
      text.head? ≠ some '"' ∧ ∃ rest, text = name ++ rest ∧ name ≠ [] ∧
        (∀ c ∈ name, isFoldedIdentifierChar c = true) ∧
        rest.head?.any isFoldedIdentifierChar = false := by
  by_cases quoted : text.head? = some '"'
  · obtain ⟨inner, rfl⟩ := List.head?_eq_some_iff.mp quoted
    simp only [languageName?_quoted, quoted, ne_eq, not_true, false_and, or_false]
    constructor
    · intro found
      split at found
      case h_1 quoted after read =>
        obtain ⟨_, closed, rfl⟩ := Option.map_eq_some_iff.mp found
        obtain ⟨nonempty, rfl, inside, _⟩ := run1_eq_some_iff.mp read
        obtain ⟨_, rfl⟩ := char_eq_some_iff.mp closed
        refine ⟨_, rfl, nonempty, fun member => ?_⟩
        simpa using inside _ member
      case h_2 => cases found
    · rintro ⟨rest, shape, nonempty, absent⟩
      have read : run1 (· != '"') inner = some (name, '"' :: rest) := by
        refine run1_eq_some_iff.mpr ⟨nonempty, (List.cons.inj shape).2, fun c member => ?_, rfl⟩
        rw [bne_iff_ne]
        rintro rfl
        exact absent member
      rw [read]
      rfl
  · rw [languageName?_of_bare quoted, Option.map_eq_some_iff]
    have notQuoted : ¬ ∃ rest, text = '"' :: name ++ '"' :: rest ∧ name ≠ [] ∧ '"' ∉ name := by
      rintro ⟨rest, rfl, _⟩
      exact quoted rfl
    simp only [Prod.exists, run1_eq_some_iff, notQuoted, quoted, ne_eq, not_false_iff, true_and,
      false_or]
    constructor
    · rintro ⟨_, rest, ⟨nonempty, whole, folded, ends⟩, rfl⟩
      exact ⟨rest, whole, nonempty, folded, ends⟩
    · rintro ⟨rest, whole, nonempty, folded, ends⟩
      exact ⟨_, rest, ⟨nonempty, whole, folded, ends⟩, rfl⟩

/-- An identifier character is a word character, also when letter case is disregarded. -/
theorem isWordChar_of_isFolded {c : Char} (folded : isFoldedIdentifierChar c = true) :
    isWordChar c = true := by
  simp only [isFoldedIdentifierChar, isFoldedLetter, Bool.or_eq_true, beq_iff_eq] at folded
  rcases folded with identifier | rfl | rfl
  · have piece := isPieceChar_of_isTypeChar (isTypeChar_of_isIdentifierChar identifier)
    rwa [isWordChar_of_isPieceChar piece]
  · decide +kernel
  · decide +kernel

/-- The word characters and quotes at the front of a text, where the name of a language stands. -/
def nameSpan (text : Text) : Text :=
  text.takeWhile fun c => isWordChar c || c == '"'

theorem mem_nameSpan {name rest : Text} (inside : ∀ c ∈ name, isWordChar c = true ∨ c = '"') :
    ∀ c ∈ name, c ∈ nameSpan (name ++ rest) := by
  intro c member
  have passes : ∀ d ∈ name, (isWordChar d || d == '"') = true := fun d here => by
    simpa using inside d here
  rw [nameSpan, List.takeWhile_append_of_pos passes]
  exact List.mem_append_left _ member

/-- The name of a declaration is read as the language, when it is written in ASCII. -/
theorem exists_languageName? {name rest : Text} (names : Names name rest)
    (ascii : ∀ c ∈ name, isWordChar c = true → isIdentifierChar c = true) :
    ∃ value, languageName? (name ++ rest) = some value ∧
      Language.resolve (some value) = .plpgsql := by
  simp only [languageName?_eq_some_iff, Language.resolve_eq_plpgsql]
  rcases names with ⟨spells, ends⟩ | ⟨inner, rfl, spells⟩
  · have identifier : ∀ c ∈ name, isIdentifierChar c = true := fun c member =>
      ascii c member (isWordChar_of_spells (by decide) spells c member)
    obtain ⟨c, others, rfl, _⟩ := @Remark.eq_cons_of_spells _ "LPGSQL".toList _ spells
    have unquoted : c ≠ '"' := by
      rintro rfl
      exact absurd (identifier '"' List.mem_cons_self) (by decide)
    refine ⟨c :: others, Or.inr ⟨by simpa using unquoted, rest, rfl, List.cons_ne_nil _ _,
      fun d member => ?_, ?_⟩, spells, identifier⟩
    · simp [isFoldedIdentifierChar, identifier d member]
    · cases rest with
      | nil => rfl
      | cons d rest =>
          rw [List.head?_cons, Option.any_some, Bool.eq_false_iff]
          intro folded
          simp [endsWord, isWordChar_of_isFolded folded] at ends
  · have identifier : ∀ c ∈ inner, isIdentifierChar c = true := fun c member =>
      ascii c (by simp [member]) (isWordChar_of_spells (by decide) spells c member)
    obtain ⟨c, others, shape, _⟩ := @Remark.eq_cons_of_spells _ "LPGSQL".toList _ spells
    refine ⟨inner, Or.inl ⟨rest, by simp, by simp [shape], ?_⟩, spells, identifier⟩
    exact not_mem_of_spells (by decide) spells

/-- What is read as the language `plpgsql` is the name of a declaration, when the word that stands
there is written in ASCII. -/
theorem exists_names {text value : Text}
    (ascii : ∀ c ∈ nameSpan text, isWordChar c = true → isIdentifierChar c = true)
    (read : languageName? text = some value) (resolved : Language.resolve (some value) = .plpgsql) :
    ∃ name rest, text = name ++ rest ∧ Names name rest := by
  obtain ⟨spells, _⟩ := Language.resolve_eq_plpgsql.mp resolved
  rcases languageName?_eq_some_iff.mp read with ⟨rest, rfl, _⟩ | ⟨_, rest, rfl, _, folded, stops⟩
  · exact ⟨_, rest, by simp, Or.inr ⟨value, rfl, spells⟩⟩
  · refine ⟨value, rest, rfl, Or.inl ⟨spells, ?_⟩⟩
    cases rest with
    | nil => rfl
    | cons c rest =>
        rw [endsWord, List.head?_cons, Option.any_some, Bool.not_eq_true', Bool.eq_false_iff]
        intro word
        -- A word character after the name is in ASCII too, so it would be part of the name.
        have shape : value ++ c :: rest = (value ++ [c]) ++ rest := by simp
        have inside : ∀ d ∈ value ++ [c], isWordChar d = true ∨ d = '"' := fun d here => by
          rcases List.mem_append.mp here with within | last
          · exact Or.inl (isWordChar_of_isFolded (folded d within))
          · exact Or.inl (List.mem_singleton.mp last ▸ word)
        have identifier := ascii c (by rw [shape]; exact mem_nameSpan inside c (by simp)) word
        simp [isFoldedIdentifierChar, identifier] at stops

/-- Where a name is written in ASCII, the language read there is `plpgsql` when the name of a
declaration stands there. -/
theorem isPlpgsqlName_iff_languageName? {text : Text}
    (ascii : ∀ c ∈ nameSpan text, isWordChar c = true → isIdentifierChar c = true) :
    isPlpgsqlName text = true ↔
      ∃ value, languageName? text = some value ∧ Language.resolve (some value) = .plpgsql := by
  rw [isPlpgsqlName_iff]
  constructor
  · rintro ⟨name, rest, rfl, names⟩
    refine exists_languageName? names fun c member => ascii c (mem_nameSpan ?_ c member)
    rcases names with ⟨spells, _⟩ | ⟨inner, rfl, spells⟩
    · exact fun d here => Or.inl (isWordChar_of_spells (by decide) spells d here)
    · intro d here
      have word := isWordChar_of_spells (by decide) spells d
      simp only [List.cons_append, List.mem_cons, List.mem_append, List.not_mem_nil, or_false]
        at here
      rcases here with rfl | within | rfl
      · exact Or.inr rfl
      · exact Or.inl (word within)
      · exact Or.inr rfl
  · rintro ⟨value, read, resolved⟩
    exact exists_names ascii read resolved

/-- `segment` has a language clause that starts after `front` and gives `name`. -/
def LanguageAt (segment front name : Text) : Prop :=
  ∃ rest, segment = front ++ rest ∧
    clauseTest "LANGUAGE" languageName? front.getLast? rest = some name

/-- A language clause other than the first one names `plpgsql`. -/
def Redeclares (segment : Text) : Prop :=
  ∃ front name later again, LanguageAt segment front name ∧ LanguageAt segment later again ∧
    front.length < later.length ∧ Language.resolve (some again) = .plpgsql

/-- The names after the word `LANGUAGE` are written in ASCII. -/
def NamesInAscii (segment : Text) : Prop :=
  ∀ front spelled gap rest, segment = front ++ (spelled ++ (gap ++ rest)) →
    Spells "LANGUAGE".toList spelled → Remark.IsGap gap →
    ∀ c ∈ nameSpan rest, isWordChar c = true → isIdentifierChar c = true

/-- The names of a segment are ASCII when all its word characters are. -/
theorem namesInAscii_of_all {segment : Text}
    (ascii : segment.all (fun c => !isWordChar c || isIdentifierChar c) = true) :
    NamesInAscii segment := by
  rintro front spelled gap rest rfl _ _ c member word
  have inside : c ∈ rest := (List.takeWhile_sublist _).subset member
  simpa [word] using List.all_eq_true.mp ascii c (by simp [inside])

/-- A segment declares PL/pgSQL when a language in it does, if its names are ASCII. -/
theorem declaresPlpgsql_iff_languageAt {segment : Text} (ascii : NamesInAscii segment) :
    declaresPlpgsql segment = true ↔
      ∃ front name, LanguageAt segment front name ∧ Language.resolve (some name) = .plpgsql := by
  have accepts (front rest : Text) (whole : segment = front ++ rest) :
      (declarationTest front.getLast? rest).isSome = true ↔
        ∃ name, clauseTest "LANGUAGE" languageName? front.getLast? rest = some name ∧
          Language.resolve (some name) = .plpgsql := by
    have found : (declarationTest front.getLast? rest).isSome = true ↔
        declarationTest front.getLast? rest = some () := by
      rw [Option.isSome_iff_exists]
      exact ⟨fun ⟨_, accepted⟩ => accepted, fun accepted => ⟨_, accepted⟩⟩
    have named (name : Text) : (if isPlpgsqlName name then some () else none) = some () ↔
        isPlpgsqlName name = true := by
      simp
    rw [found, declarationTest_eq_clauseTest]
    simp only [clauseTest_eq_some_iff, named]
    constructor
    · rintro ⟨starts, spelled, gap, name, rfl, spells, some, blank, visible, isName⟩
      obtain ⟨read, value, resolved⟩ := (isPlpgsqlName_iff_languageName?
        (ascii front spelled gap name whole spells ⟨some, blank⟩)).mp isName
      exact ⟨read, ⟨starts, spelled, gap, name, rfl, spells, some, blank, visible, value⟩, resolved⟩
    · rintro ⟨read, ⟨starts, spelled, gap, name, rfl, spells, some, blank, visible, value⟩,
        resolved⟩
      have isName := (isPlpgsqlName_iff_languageName?
        (ascii front spelled gap name whole spells ⟨some, blank⟩)).mpr ⟨read, value, resolved⟩
      exact ⟨starts, spelled, gap, name, rfl, spells, some, blank, visible, isName⟩
  rw [declaresPlpgsql_eq, search_isSome_iff]
  simp only [Option.or_none]
  constructor
  · rintro ⟨front, rest, whole, found⟩
    obtain ⟨name, clause, resolved⟩ := (accepts front rest whole).mp found
    exact ⟨front, name, ⟨rest, whole, clause⟩, resolved⟩
  · rintro ⟨front, name, ⟨rest, whole, clause⟩, resolved⟩
    exact ⟨front, rest, whole, (accepts front rest whole).mpr ⟨name, clause, resolved⟩⟩

/-- **Declared languages.** Options with language names in ASCII declare `plpgsql` when it is their
language, or when a later language clause names it. -/
theorem declaresPlpgsql_iff {segment : Text} (ascii : NamesInAscii segment) :
    declaresPlpgsql segment = true ↔
      languageIn segment = .plpgsql ∨ Redeclares segment := by
  rw [declaresPlpgsql_iff_languageAt ascii, languageIn, clause?_eq]
  constructor
  · rintro ⟨front, name, ⟨rest, whole, clause⟩, resolved⟩
    cases searched : search (clauseTest "LANGUAGE" languageName?) none segment with
    | none =>
        have refused := search_eq_none_iff_forall.mp searched front rest whole
        rw [Option.or_none, clause] at refused
        cases refused
    | some parts =>
        obtain ⟨passed, first⟩ := parts
        obtain ⟨tail, split, misses, accepts⟩ := misses_of_search searched
        rw [Option.or_none] at accepts
        rcases Nat.lt_trichotomy front.length passed.length with ahead | same | behind
        · have refused := misses_iff.mp misses front rest (split.symm.trans whole) ahead
          rw [Option.or_none, clause] at refused
          cases refused
        · obtain ⟨rfl, rfl⟩ := List.append_inj (whole.symm.trans split) same
          rw [clause] at accepts
          cases accepts
          exact Or.inl resolved
        · exact Or.inr ⟨passed, first, front, name, ⟨tail, split, accepts⟩, ⟨rest, whole, clause⟩,
            behind, resolved⟩
  · rintro (resolved | ⟨_, _, later, again, _, clause, _, resolved⟩)
    · cases searched : search (clauseTest "LANGUAGE" languageName?) none segment with
      | none =>
          rw [searched] at resolved
          cases resolved
      | some parts =>
          obtain ⟨passed, name⟩ := parts
          obtain ⟨rest, split, accepts⟩ := eq_append_of_search searched
          rw [Option.or_none] at accepts
          rw [searched] at resolved
          exact ⟨passed, name, ⟨rest, split, accepts⟩, resolved⟩
    · exact ⟨later, again, clause, resolved⟩

end Options

/-! ### The place of the marker -/

namespace Script

/-- **Stray declarations.** The words `LANGUAGE plpgsql` stand outside the options, or in a language
clause that is not the first one. -/
def Strays (script : Script) : Prop :=
  script.DeclaresElsewhere ∨ Options.Redeclares script.optionText

/-- What the options say about the language is said in plain sight: comments do not change it, names
are written in ASCII, and a remark is not joined to the last word. -/
structure DeclaresPlainly (script : Script) : Prop where
  uncommented : Options.languageIn script.optionText.maskComments =
    Options.languageIn script.optionText
  ascii : Options.NamesInAscii script.optionText
  apart : script.remark = none ∨ startsWord script.trailing.getLast? = true

end Script

namespace Marker

open Text

/-- The text with a marker line in the block of its body, if there is one. -/
def belowBegin (text : Text) (guid : Guid) (script : Script) (tag content : Text) : Text :=
  match splitBegin? content with
  | some (opening, rest) =>
      (LineEnding.detect text).apply
        (script.splice (tag ++ (opening ++ insertAfterLine (line guid) rest) ++ tag))
  | none => text

/-- The text with a marker line at the start of its body. -/
def belowOpening (text : Text) (guid : Guid) (script : Script) (tag content : Text) : Text :=
  (LineEnding.detect text).apply
    (script.splice (tag ++ insertAfterOpening (line guid) content ++ tag))

/-- A marker line goes where the words of a declaration say. -/
theorem ensure_of_declaresPlpgsql {text id tag content : Text} {guid : Guid} {script : Script}
    (identified : Guid.parse? id = some guid) (found : Script.ofText? text.normalize = some script)
    (dollar : script.body = .dollar tag content) (unmarked : Unmarked content) :
    ensure text id =
      if declaresPlpgsql text.normalize then belowBegin text guid script tag content
      else belowOpening text guid script tag content := by
  rw [ensure_of_parse? identified, place?, found]
  simp only [dollar, updateBody?, splitExisting?_eq_none_iff.mpr unmarked]
  split
  · rw [belowBegin]
    cases splitBegin? content with
    | none => rfl
    | some parts => rfl
  · rfl

/-- **The language and the place of the marker.** In a body without a marker, the marker line goes
into the block of the body when the language of the definition is `plpgsql` or the words are found
somewhere else, and to the start of the body otherwise. -/
theorem ensure_of_unmarked {text id tag content : Text} {guid : Guid} {definition : Definition}
    (identified : Guid.parse? id = some guid)
    (parsed : Definition.ofText? text.normalize = some definition)
    (dollar : definition.script.body = .dollar tag content) (unmarked : Unmarked content)
    (plain : definition.script.DeclaresPlainly) :
    (definition.language = .plpgsql ∨ definition.script.Strays →
      ensure text id = belowBegin text guid definition.script tag content) ∧
    (definition.language ≠ .plpgsql → ¬ definition.script.Strays →
      ensure text id = belowOpening text guid definition.script tag content) := by
  obtain ⟨script, found, rfl⟩ := Option.map_eq_some_iff.mp parsed
  have language : (Definition.ofScript script).language = Options.languageIn script.optionText :=
    plain.uncommented
  have ascii : Options.NamesInAscii script.optionText := plain.ascii
  have declares : declaresPlpgsql text.normalize = true ↔
      (Definition.ofScript script).language = .plpgsql ∨ script.Strays := by
    rw [Script.declaresPlpgsql_text found dollar plain.apart,
      Options.declaresPlpgsql_iff ascii, language, Script.Strays]
    exact or_left_comm
  have branch := ensure_of_declaresPlpgsql identified found dollar unmarked
  constructor
  · intro stands
    rw [branch, if_pos (declares.mpr stands)]
    rfl
  · intro other nowhere
    rw [branch, if_neg fun stands => (declares.mp stands).elim other nowhere]
    rfl

/-- A script in `plpgsql` with another language in a comment in front of it. -/
def formerly : Script where
  before := "-- Was LANGUAGE sql.\n".toList
  header := ⟨.function, "CREATE FUNCTION ".toList⟩
  name := "f".toList
  arguments := []
  leading := " RETURNS int AS ".toList
  body := .dollar "$$".toList "\nBEGIN\n  RETURN 1;\nEND\n".toList
  trailing := " LANGUAGE \"PLpgSQL\";".toList
  remark := none
  after := []

/-- A script whose language is quoted and in mixed case gets its marker below `BEGIN`. -/
theorem ensure_formerly :
    let id := "9968C379-A8C4-4D5A-9F23-4F79E7C3B5E9".toList
    ∃ guid, Guid.parse? id = some guid ∧
      Definition.ofText? formerly.text.normalize = some (.ofScript formerly) ∧
      ensure formerly.text id =
        belowBegin formerly.text guid formerly "$$".toList
          "\nBEGIN\n  RETURN 1;\nEND\n".toList := by
  intro id
  obtain ⟨guid, identified⟩ : ∃ guid, Guid.parse? id = some guid :=
    Option.isSome_iff_exists.mp (by decide +kernel)
  have parsed : Definition.ofText? formerly.text.normalize = some (.ofScript formerly) := by
    decide +kernel
  have unmarked : Unmarked "\nBEGIN\n  RETURN 1;\nEND\n".toList :=
    splitExisting?_eq_none_iff.mp (by decide +kernel)
  have plain : formerly.DeclaresPlainly :=
    ⟨by decide +kernel, Options.namesInAscii_of_all (by decide +kernel), Or.inl rfl⟩
  have language : (Definition.ofScript formerly).language = .plpgsql := by decide +kernel
  exact ⟨guid, identified, parsed,
    (ensure_of_unmarked identified parsed rfl unmarked plain).1 (Or.inl language)⟩

/-- A script in `sql` with another language in a comment in front of it. -/
def formerlyBlock : Script where
  before := "-- Was LANGUAGE plpgsql.\n".toList
  header := ⟨.function, "CREATE FUNCTION ".toList⟩
  name := "f".toList
  arguments := []
  leading := " RETURNS int AS ".toList
  body := .dollar "$$".toList "\nSELECT 1;\n".toList
  trailing := " LANGUAGE sql;".toList
  remark := none
  after := []

/-- The words in the comment send the marker line into a block, and there is none. -/
theorem ensure_formerlyBlock :
    let id := "9968C379-A8C4-4D5A-9F23-4F79E7C3B5E9".toList
    let definition := Definition.ofScript formerlyBlock
    ∃ guid, Guid.parse? id = some guid ∧
      Definition.ofText? formerlyBlock.text.normalize = some definition ∧
      definition.language = .sql ∧ Unmarked "\nSELECT 1;\n".toList ∧
      ensure formerlyBlock.text id = formerlyBlock.text ∧
      ensure formerlyBlock.text id ≠
        belowOpening formerlyBlock.text guid formerlyBlock "$$".toList "\nSELECT 1;\n".toList := by
  intro id definition
  have differs : (Guid.parse? id).any (fun guid => decide (
      ensure formerlyBlock.text id ≠ belowOpening formerlyBlock.text guid formerlyBlock "$$".toList
        "\nSELECT 1;\n".toList)) = true := by
    decide +kernel
  obtain ⟨guid, identified, other⟩ := (Option.any_eq_true _ _).mp differs
  exact ⟨guid, identified, by decide +kernel, by decide +kernel,
    splitExisting?_eq_none_iff.mp (by decide +kernel), by decide +kernel, of_decide_eq_true other⟩

end Marker

end RoutineScripts
