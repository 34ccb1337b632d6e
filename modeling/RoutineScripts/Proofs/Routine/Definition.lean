import RoutineScripts.Proofs.Marker.Basic
import RoutineScripts.Proofs.Routine.Exchange
import RoutineScripts.Proofs.Routine.Remark
import RoutineScripts.Proofs.Routine.Spacing
import RoutineScripts.Routine.Definition

/-!
# Definitions of a normalised text

A script is cut from a normalised text where it is cut from the text itself
(`Script.ofText?_normalize`), so both texts define the same routine
(`Definition.rel_ofText?_normalize`). What a definition keeps as written is normalised with the
text; a type and the name of a language are the same up to white space, because a line break in a
comment among the options counts as one space or as two.
-/

namespace RoutineScripts

open Text

/-- How a body literal is delimited: by a dollar tag, or by single quotes, with a link symbol or
without one. -/
inductive Delimiter
  | dollar (tag : Text)
  | quoted (linked : Bool)
  deriving DecidableEq, Repr

/-- The delimiter of a body literal. -/
def Literal.delimiter : Literal → Delimiter
  | dollar tag _ => .dollar tag
  | quoted _ link => .quoted link.isSome

/-- The delimiter of a literal breaks no line. -/
theorem Literal.delimiter_normalize (literal : Literal) :
    literal.normalize.delimiter = literal.delimiter := by
  cases literal with
  | dollar tag content => rfl
  | quoted content link => rw [normalize, delimiter, Option.isSome_map, delimiter]

namespace Script

/-- A statement ends at the same place before and after normalization. -/
theorem cutStatement_normalize {text statement after : Text} {remark : Option Remark}
    (cut : cutStatement text = (statement, remark, after)) :
    cutStatement text.normalize =
      (statement.normalize, remark.map Remark.normalize, after.normalize) := by
  rw [cutStatement, Remark.find?_normalize]
  unfold cutStatement at cut
  split at cut
  case h_1 found =>
    cases cut
    rw [found]
    rfl
  case h_2 missed =>
    rw [missed, splitStatement?_normalize]
    split at cut
    case h_1 found =>
      cases cut
      rw [found]
      rfl
    case h_2 missedToo =>
      cases cut
      rw [missedToo]
      rfl

/-- A script with the line breaks in all its parts normalised. -/
def normalize (script : Script) : Script where
  before := script.before.normalize
  header := script.header.normalize
  name := script.name.normalize
  arguments := script.arguments.normalize
  leading := script.leading.normalize
  body := script.body.normalize
  trailing := script.trailing.normalize
  remark := script.remark.map Remark.normalize
  after := script.after.normalize

/-- **Scripts ignore the kind of line breaks.** -/
theorem ofText?_normalize (text : Text) :
    ofText? text.normalize = (ofText? text).map normalize := by
  have opening : isBreak '(' = false := rfl
  rw [ofText?, ofText?, Header.find?_normalize]
  cases Header.find? text with
  | none => rfl
  | some headed =>
      obtain ⟨before, header, tail⟩ := headed
      cases cut : cutStatement tail with
      | mk statement others =>
          obtain ⟨remark, after⟩ := others
          simp only [Option.map_some, cutStatement_normalize cut, cut,
            splitTopLevel?_normalize opening]
          cases splitTopLevel? '(' statement with
          | none => rfl
          | some named =>
              simp only [Option.map_some, splitParens?_normalize]
              cases splitParens? named.2 with
              | none => rfl
              | some closed =>
                  simp only [Option.map_some, Literal.locate?_normalize, Option.map_map]
                  rfl

/-- What precedes the body is normalized on its own. -/
theorem prologue_normalize {text : Text} {script : Script} (parsed : ofText? text = some script) :
    script.normalize.prologue = script.prologue.normalize := by
  have opening : isBreak '(' = false := rfl
  have closing : isBreak ')' = false := rfl
  obtain ⟨tail, statement, named, listed, headed, cut, opened, closed, located⟩ :=
    ofText?_eq_some_iff.mp parsed
  obtain ⟨first, second⟩ := Header.cleanCut_of_find? headed
  have head : script.normalize.head = script.head.normalize := by
    rw [Script.head, Script.head]
    simp only [normalize_append_cons opening, normalize_append_cons closing]
    rfl
  rw [eq_append_of_cutStatement cut, eq_head_append opened closed located] at first second
  simp only [List.append_assoc] at first second
  rw [← List.append_assoc] at first
  rw [prologue_eq, prologue_eq, head, List.append_assoc, List.append_assoc,
    normalize_append first.of_append, normalize_append second.of_append]
  rfl

/-- No `\r\n` stands in front of a dollar tag. -/
theorem cleanCut_tag {tag : Text} (isTag : IsDollarTag tag) (front back : Text) :
    CleanCut front (tag ++ back) := by
  obtain ⟨name, rfl, _⟩ := isTag
  exact cleanCut_cons front rfl _

/-- What follows a dollar-quoted body is normalized on its own. -/
theorem epilogue_normalize {text tag content : Text} {script : Script}
    (parsed : ofText? text = some script) (dollar : script.body = .dollar tag content) :
    script.normalize.epilogue = script.epilogue.normalize := by
  have isTag := (opensBody_of_ofText? parsed dollar).1.isTag
  have parsedToo : ofText? text.normalize = some script.normalize := by
    rw [ofText?_normalize, parsed, Option.map_some]
  have whole := text_of_ofText? parsedToo
  have body : script.normalize.body = .dollar tag content.normalize :=
    congrArg Literal.normalize dollar
  rw [← text_of_ofText? parsed, Script.text, Script.text, dollar, body, prologue_normalize parsed,
    Literal.written, Literal.written] at whole
  simp only [List.append_assoc] at whole
  rw [normalize_append (cleanCut_tag isTag _ _), normalize_append_of_visible isTag.visible,
    normalize_append (cleanCut_tag isTag _ _), normalize_append_of_visible isTag.visible] at whole
  exact List.append_cancel_left (List.append_cancel_left (List.append_cancel_left
    (List.append_cancel_left whole)))

/-- **Scripts of a text in one convention.** A text whose line breaks are all of one kind has the
script of its normalised form, in the convention of the text. -/
theorem eq_apply_of_uniform {text tag body : Text} {raw script : Script} (uniform : Uniform text)
    (found : ofText? text = some raw) (normal : ofText? text.normalize = some script)
    (dollar : script.body = .dollar tag body) :
    raw.prologue = (LineEnding.detect text).apply script.prologue ∧
      raw.body = .dollar tag ((LineEnding.detect text).apply body) ∧
      raw.epilogue = (LineEnding.detect text).apply script.epilogue := by
  rw [ofText?_normalize, found, Option.map_some] at normal
  obtain rfl := Option.some.inj normal
  cases literal : raw.body with
  | quoted content link =>
      have body : raw.normalize.body = _ := congrArg Literal.normalize literal
      rw [dollar] at body
      cases body
  | dollar other content =>
      have body : raw.normalize.body = _ := congrArg Literal.normalize literal
      rw [dollar, Literal.normalize] at body
      obtain ⟨rfl, rfl⟩ := Literal.dollar.inj body
      have isTag := (opensBody_of_ofText? found literal).1.isTag
      have kinds : ∀ kind ∈ text.breaks, kind = LineEnding.detect text :=
        fun _ member => LineEnding.eq_detect_of_mem_breaks uniform member
      have whole : text = raw.prologue ++ (tag ++ (content ++ (tag ++ raw.epilogue))) := by
        rw [← text_of_ofText? found, Script.text, literal, Literal.written]
        simp
      generalize LineEnding.detect text = ending at kinds ⊢
      rw [whole] at kinds
      obtain ⟨front, kinds⟩ := apply_normalize_of_append (cleanCut_tag isTag _ _) kinds
      obtain ⟨_, kinds⟩ := apply_normalize_of_append (cleanCut_of_visible isTag.visible _) kinds
      obtain ⟨inner, kinds⟩ := apply_normalize_of_append (cleanCut_tag isTag _ _) kinds
      obtain ⟨_, kinds⟩ := apply_normalize_of_append (cleanCut_of_visible isTag.visible _) kinds
      rw [prologue_normalize found, epilogue_normalize found literal, front, inner,
        LineEnding.apply_normalize_of_breaks kinds]
      exact ⟨rfl, rfl, rfl⟩

/-- The text with the options is normalized on its own. -/
theorem optionText_normalize (script : Script) :
    script.normalize.optionText = script.optionText.normalize := by
  have visible : isBreak ' ' = false := rfl
  exact (normalize_append_cons visible script.leading script.trailing).symm

end Script

namespace Definition

/-- One definition is another one with its line breaks normalised. A type and the name of a language
may differ in white space. -/
structure IsNormalized (definition normal : Definition) : Prop where
  kind : normal.kind = definition.kind
  arguments : normal.arguments = definition.arguments
  comment : normal.comment = definition.comment
  marker : normal.marker = definition.marker
  attributes : normal.attributes = definition.attributes
  securityDefiner : normal.securityDefiner = definition.securityDefiner
  delimiter : normal.script.body.delimiter = definition.script.body.delimiter
  before : normal.before = definition.before.normalize
  after : normal.after = definition.after.normalize
  schema : normal.name.schema = definition.name.schema.map Text.normalize
  name : normal.name.name = definition.name.name.normalize
  qualified : normal.name.qualified = definition.name.qualified.normalize
  bodyText : normal.bodyText = definition.bodyText.normalize
  returns : normal.returns.collapse = definition.returns.collapse
  language : normal.language.collapse = definition.language.collapse

/-- The definition of a normalized script is the normalized one. -/
theorem isNormalized_ofScript {script : Script} {text : Text}
    (parsed : Script.ofText? text = some script) :
    (ofScript script).IsNormalized (ofScript script.normalize) := by
  have parsedToo : Script.ofText? text.normalize = some script.normalize := by
    rw [Script.ofText?_normalize, parsed, Option.map_some]
  have options := Options.collapse_ofText_normalize script.optionText
  rw [← Script.optionText_normalize] at options
  have attributes : (Options.ofText script.normalize.optionText).attributes script.header.kind =
      (Options.ofText script.optionText).attributes script.header.kind :=
    congrArg (·.attributes script.header.kind) options
  have securityDefiner := congrArg Options.securityDefiner options
  have names : QualifiedName.ofText script.normalize.name =
      (QualifiedName.ofText script.name).normalize := QualifiedName.ofText_normalize script.name
  exact {
    kind := congrArg Attributes.kind attributes
    arguments := by
      show script.arguments.normalize.normalize.trimBlankLines = _
      rw [normalize_normalize]
      rfl
    comment := by
      show (script.remark.map Remark.normalize).map Remark.text = _
      rw [Option.map_map]
      rfl
    marker := by
      show Marker.find? script.normalize.text = Marker.find? script.text
      rw [Script.text_of_ofText? parsed, Script.text_of_ofText? parsedToo, Marker.find?_normalize]
    attributes
    securityDefiner
    delimiter := Literal.delimiter_normalize script.body
    before := trimBlankLines_normalize script.before
    after := trimBlankLines_normalize script.after
    schema := congrArg QualifiedName.schema names
    name := congrArg QualifiedName.name names
    qualified := (congrArg QualifiedName.qualified names).trans
      (QualifiedName.qualified_normalize _)
    bodyText := Literal.text_normalize script.body
    returns := congrArg Options.returns options
    language := congrArg Options.language options }

/-- **Definitions ignore the kind of line breaks.** A normalised text defines a routine exactly when
the text does, and then the same one. -/
theorem rel_ofText?_normalize (text : Text) :
    Option.Rel IsNormalized (ofText? text) (ofText? text.normalize) := by
  rw [ofText?, ofText?, Script.ofText?_normalize]
  cases parsed : Script.ofText? text with
  | none => exact .none
  | some script => exact .some (isNormalized_ofScript parsed)

end Definition

end RoutineScripts
