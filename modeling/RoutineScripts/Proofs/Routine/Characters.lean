import RoutineScripts.Proofs.Text.Recogniser
import RoutineScripts.Proofs.Text.Ends
import RoutineScripts.Routine.Fingerprint

/-!
# The characters of what is read

What a definition says about its routine is made of characters of its text, apart from a few that
reading puts in: a line feed for a line break, a space for a comment, a dot between a schema and a
name. So a character that separates something elsewhere and does not occur in the text occurs in no
field of the definition (`Definition.lacks_of_ofText?`).
-/

namespace RoutineScripts

namespace Text

variable {text : Text} {c : Char}

theorem mem_of_mem_normalize (member : c ∈ text.normalize) : c ∈ text ∨ c = '\n' := by
  induction text using normalize.induct with
  | case1 => exact Or.inl member
  | case2 rest ih =>
      rw [normalize, List.mem_cons] at member
      rcases member with rfl | later
      · exact Or.inr rfl
      · exact (ih later).imp_left fun inside => by simp [inside]
  | case3 d rest notBreak ih =>
      rw [normalize.eq_3 _ _ notBreak, List.mem_cons] at member
      rcases member with rfl | later
      · split <;> simp
      · exact (ih later).imp_left (List.mem_cons_of_mem _)

theorem trim_subset : text.trim ⊆ text := fun _ member =>
  (List.dropWhile_sublist _).subset (dropTail_subset isBlank member)

theorem trimBlankLines_subset : text.trimBlankLines ⊆ text := by
  have visible : text.dropWhile isBlank ⊆ text := (List.dropWhile_sublist _).subset
  intro c member
  rw [trimBlankLines, List.mem_append, List.mem_append] at member
  rcases member with (front | inside) | back
  · exact (List.takeWhile_sublist _).subset (takeTail_subset _ front)
  · exact visible (dropTail_subset _ inside)
  · exact visible (takeTail_subset _ ((List.takeWhile_sublist _).subset back))

theorem undouble_subset : text.undouble ⊆ text := by
  induction text using undouble.induct with
  | case1 => exact List.Subset.refl _
  | case2 rest ih =>
      rw [undouble]
      exact List.cons_subset_cons _ (List.Subset.trans ih (List.subset_cons_self _ _))
  | case3 d rest notDouble ih =>
      rw [undouble.eq_3 _ _ notDouble]
      exact List.cons_subset_cons _ ih

/-- A line is part of the text. -/
theorem subset_of_mem_lines {line : Text} (member : line ∈ text.lines) : line ⊆ text := by
  induction text generalizing line with
  | nil => cases member
  | cons d rest ih =>
      rw [lines] at member
      split at member
      case isTrue =>
        rcases List.mem_cons.mp member with rfl | later
        · exact List.nil_subset _
        · exact List.Subset.trans (ih later) (List.subset_cons_self _ _)
      case isFalse =>
        split at member
        case h_1 =>
          obtain rfl := List.mem_singleton.mp member
          exact List.cons_subset_cons _ (List.nil_subset _)
        case h_2 first others shape =>
          rcases List.mem_cons.mp member with rfl | later
          · exact List.cons_subset_cons _ (ih (shape ▸ List.mem_cons_self))
          · have inside := ih (shape ▸ List.mem_cons_of_mem _ later)
            exact List.Subset.trans inside (List.subset_cons_self _ _)

theorem mem_of_mem_maskComments (member : c ∈ text.maskComments) : c ∈ text ∨ c = ' ' := by
  obtain ⟨glyph, inside, shown⟩ := List.mem_flatMap.mp member
  have here : glyph.char ∈ text := by
    rw [← ofGlyphs_scan text]
    exact List.mem_map_of_mem inside
  by_cases comment : glyph.isComment = true
  · rw [if_pos comment] at shown
    exact Or.inr (List.eq_of_mem_replicate shown)
  · rw [if_neg comment, List.mem_singleton] at shown
    exact Or.inl (shown ▸ here)

end Text

theorem unquoteIdentifier_subset (text : Text) : unquoteIdentifier text ⊆ text := by
  have closed (opened : Text) :
      (if opened.getLast? = some '"' then opened.dropLast else opened) ⊆ opened := by
    split
    case isTrue => exact (List.dropLast_sublist _).subset
    case isFalse => exact List.Subset.refl _
  refine List.Subset.trans (closed _) ?_
  split
  case h_1 rest shape =>
    exact fun c member => Text.trim_subset (shape ▸ List.mem_cons_of_mem _ member)
  case h_2 => exact Text.trim_subset

theorem QualifiedName.mem_of_mem_qualified {segment : Text} {c : Char}
    (member : c ∈ (ofText segment).qualified) : c ∈ segment ∨ c = '.' := by
  rw [ofText] at member
  split at member
  case h_1 schema name split =>
    have whole := Text.eq_append_of_splitTopLevel? split
    have part : schema ++ name ⊆ segment := by
      intro d inside
      refine Text.trim_subset ?_
      rw [whole]
      rcases List.mem_append.mp inside with front | back
      · exact List.mem_append_left _ front
      · exact List.mem_append_right _ (List.mem_cons_of_mem _ back)
    rw [qualified, List.mem_append, List.mem_cons] at member
    rcases member with inSchema | rfl | inName
    · exact Or.inl (part (List.mem_append_left _ (unquoteIdentifier_subset _ inSchema)))
    · exact Or.inr rfl
    · exact Or.inl (part (List.mem_append_right _ (unquoteIdentifier_subset _ inName)))
  case h_2 =>
    rw [qualified] at member
    exact Or.inl (Text.trim_subset (unquoteIdentifier_subset _ member))

/-- A language keeps the name that it was declared with. -/
theorem Language.eq_some_of_name?_resolve {declared : Option Text} {name : Text}
    (named : (resolve declared).name? = some name) : declared = some name := by
  cases declared with
  | none => cases named
  | some word =>
      rw [resolve] at named
      repeat' split at named
      all_goals cases named
      rfl

namespace Options

open Recogniser

/-- A clause is read from an end of its segment. -/
theorem exists_suffix_of_clause? {α : Type} {word : String} {value? : Text → Option α}
    {segment : Text} {found : α} (read : clause? word value? segment = some found) :
    ∃ rest, rest <:+ segment ∧ value? rest = some found := by
  simp only [clause?, Option.map_eq_some_iff, Prod.exists] at read
  obtain ⟨passed, value, searched, rfl⟩ := read
  obtain ⟨tail, split, accepted⟩ := eq_append_of_search searched
  split at accepted
  case isFalse => cases accepted
  case isTrue =>
    split at accepted
    case h_2 => cases accepted
    case h_1 words rest spelled =>
      have parts : (sequence [.keyword word, .blanks]).Splits := splits_sequence (by
        simp only [List.forall_mem_cons]
        exact ⟨splits_keyword _, splits_blanks, fun _ member => absurd member List.not_mem_nil⟩)
      refine ⟨rest, ?_, accepted⟩
      rw [split, parts _ _ _ spelled]
      exact (List.suffix_append _ _).trans (List.suffix_append _ _)

theorem untilTerminator_subset (text : Text) : untilTerminator text ⊆ text := by
  cases text with
  | nil => exact List.Subset.refl _
  | cons c rest =>
      rw [untilTerminator]
      split
      case h_1 passed _ searched =>
        obtain ⟨tail, split, _⟩ := eq_append_of_search searched
        rw [split]
        exact List.cons_subset_cons _ (List.subset_append_left _ _)
      case h_2 => exact List.Subset.refl _

theorem returnsIn_subset (segment : Text) : returnsIn segment ⊆ segment := by
  rw [returnsIn]
  split
  case h_1 rest read =>
    obtain ⟨tail, suffix, same⟩ := exists_suffix_of_clause? read
    cases same
    exact List.Subset.trans (List.Subset.trans Text.trim_subset (untilTerminator_subset _))
      suffix.subset
  case h_2 => exact List.nil_subset _

/-- The name of a language is part of the text. -/
theorem subset_of_languageName? {text name : Text} (read : languageName? text = some name) :
    name ⊆ text := by
  unfold languageName? at read
  split at read
  case h_1 rest =>
    split at read
    case h_2 => cases read
    case h_1 quoted left accepted =>
      cases read
      have parts : (sequence [.run1 (· != '"'), .char '"']).Splits := splits_sequence (by
        simp only [List.forall_mem_cons]
        exact ⟨splits_run1 _, splits_char _, fun _ member => absurd member List.not_mem_nil⟩)
      rw [parts _ _ _ accepted]
      have inside := List.Subset.trans (List.dropLast_sublist quoted).subset
        (List.subset_append_left _ left)
      exact List.Subset.trans inside (List.subset_cons_self _ _)
  case h_2 =>
    simp only [Option.map_eq_some_iff, Prod.exists] at read
    obtain ⟨accepted, left, found, rfl⟩ := read
    rw [splits_run1 _ _ _ _ found]
    exact List.subset_append_left _ _

/-- The declared name of a language stands in its segment. -/
theorem subset_of_languageIn {segment name : Text}
    (named : (languageIn segment).name? = some name) : name ⊆ segment := by
  rw [languageIn] at named
  cases read : clause? "LANGUAGE" languageName? segment with
  | none =>
      rw [read] at named
      cases named
  | some declared =>
      obtain ⟨rest, suffix, value⟩ := exists_suffix_of_clause? read
      rw [read] at named
      cases Language.eq_some_of_name?_resolve named
      exact List.Subset.trans (subset_of_languageName? value) suffix.subset

/-- A number holds digits and a point. -/
theorem isDigit_or_of_numberIn {word : String} {segment digits : Text}
    (read : numberIn word segment = some digits) : ∀ c ∈ digits, c.isDigit = true ∨ c = '.' := by
  obtain ⟨rest, _, value⟩ := exists_suffix_of_clause? read
  simp only [Option.map_eq_some_iff, Prod.exists] at value
  obtain ⟨accepted, left, found, rfl⟩ := value
  have digits (z : Char) (fails : z.isDigit = false) : (run1 Char.isDigit).Omits z := by
    intro text part after read inside
    rw [(run1_eq_some_iff.mp read).2.2.1 z inside] at fails
    cases fails
  intro c member
  by_cases digit : c.isDigit = true
  · exact Or.inl digit
  refine Or.inr (Classical.byContradiction fun notPoint => ?_)
  have notDigit : c.isDigit = false := by simpa using digit
  have omits : number.Omits c := by
    refine omits_sequence (List.forall_mem_cons.mpr ⟨digits c notDigit, ?_⟩)
    rw [List.forall_mem_singleton]
    refine omits_optional (omits_sequence (List.forall_mem_cons.mpr ⟨omits_char notPoint, ?_⟩))
    rw [List.forall_mem_singleton]
    exact digits c notDigit
  exact omits _ _ _ found member

end Options

/-- A body holds what is written between the delimiters of its literal. -/
theorem Literal.text_subset (literal : Literal) : literal.text ⊆ literal.written := by
  intro c member
  cases literal with
  | dollar tag content =>
      have inside := Text.trimBlankLines_subset member
      simp [written, inside]
  | quoted content link =>
      have inside := Text.undouble_subset (Text.trimBlankLines_subset member)
      simp [written, Text.quote, inside]

namespace Definition

/-- No field of a definition holds the character `z`. -/
structure Lacks (definition : Definition) (z : Char) : Prop where
  name : z ∉ definition.name.qualified
  arguments : z ∉ definition.arguments
  returns : z ∉ definition.returns
  language : ∀ name, definition.language.name? = some name → z ∉ name
  body : z ∉ definition.bodyText

/-- **Fields hold what is in the text.** A character that the text lacks and that reading does not
put in is in no field. -/
theorem lacks_of_ofText? {text : Text} {definition : Definition} {z : Char}
    (parsed : ofText? text = some definition) (absent : z ∉ text)
    (notPutIn : z ∉ ['\n', ' ', '.']) : definition.Lacks z := by
  obtain ⟨script, cut, rfl⟩ := Option.map_eq_some_iff.mp parsed
  obtain ⟨notFeed, notSpace, notDot⟩ : z ≠ '\n' ∧ z ≠ ' ' ∧ z ≠ '.' := by simpa using notPutIn
  rw [← Script.text_of_ofText? cut] at absent
  simp only [Script.text, Script.prologue, Script.epilogue, List.mem_append, List.mem_cons,
    not_or] at absent
  obtain ⟨⟨⟨⟨⟨_, name⟩, _, arguments⟩, _, leading⟩, body⟩, ⟨trailing, _⟩, _⟩ := absent
  have masked : z ∉ script.optionText.maskComments := by
    intro member
    rcases Text.mem_of_mem_maskComments member with inside | rfl
    · rw [Script.optionText, List.mem_append, List.mem_cons] at inside
      exact inside.elim leading fun later => later.elim notSpace trailing
    · exact notSpace rfl
  refine ⟨fun member => ?_, fun member => ?_, fun member => ?_, fun declared named member => ?_,
    fun member => body (Literal.text_subset _ member)⟩
  · exact (QualifiedName.mem_of_mem_qualified member).elim name notDot
  · exact (Text.mem_of_mem_normalize (Text.trimBlankLines_subset member)).elim arguments notFeed
  · exact masked (Options.returnsIn_subset _ member)
  · exact masked (Options.subset_of_languageIn named member)

end Definition

end RoutineScripts
