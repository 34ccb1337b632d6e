import RoutineScripts.Proofs.Bytes.Literal
import RoutineScripts.Proofs.Bytes.Remark
import RoutineScripts.Routine.Definition
import RoutineScripts.Routine.Fingerprint

/-!
# Definitions by bytes

A definition is read from slices with different origins. The statement starts where its header does,
so offsets in the whole text are moved to the origin of the statement, and the span of the body is
moved back. The reading makes no access that fails, and it gives the parts of the script
(`Checked.definition?_eq`): a header holds nothing that would end the statement, open an argument
list or a remark, so a search from its start or from its second byte finds what a search after the
header does.

What is recorded of a definition holds its parts as texts. So its summary reads no text by offsets
(`DefinitionRecord.summary_record`), and its body is replaced between two slices
(`Checked.replaceBody?_eq`).
-/

namespace RoutineScripts

/-- What is recorded of a definition: its parts as texts, and where its body is in the text. -/
structure DefinitionRecord where
  text : Text
  before : Text
  after : Text
  name : QualifiedName
  arguments : Text
  returns : Text
  language : Language
  securityDefiner : Bool
  attributes : Attributes
  body : PlacedLiteral
  comment : Option Text
  marker : Option Text
  deriving DecidableEq, Repr

/-- The record of a definition. -/
def Definition.record (definition : Definition) : DefinitionRecord where
  text := definition.script.text
  before := definition.before
  after := definition.after
  name := definition.name
  arguments := definition.arguments
  returns := definition.returns
  language := definition.language
  securityDefiner := definition.securityDefiner
  attributes := definition.attributes
  body := definition.script.body.placed definition.script.bodySpan.1
  comment := definition.comment
  marker := definition.marker

namespace Checked

/-! ### The statement -/

/-- Where the definition whose header starts at an offset ends, where the text after it starts, and
the comment that is made on it. -/
def statementSpan (text : Text) (first : Nat) : Checked (Nat × Nat × Option Text) := do
  match ← findRemarkFrom? text (first + 1) with
  | some remark => return (remark.first, remark.last, some remark.comment)
  | none =>
      let found ← statementEnd? text first
      let stop := found.getD text.byteLength
      return (stop, stop, none)

/-- The parts of a statement: its name, the text of its argument list, the options around its body,
and the body. -/
structure StatementParts where
  name : QualifiedName
  arguments : Text
  options : Options
  body : PlacedLiteral

/-- The options on both sides of a body, the first of which start at an offset. -/
def readOptions (statement : Text) (start : Nat) (body : PlacedLiteral) : Checked Options := do
  let leading ← slice statement start body.first
  let trailing ← sliceFrom statement body.last
  options (leading ++ ' ' :: trailing)

/-- Reads the parts of a statement from an offset on. -/
def readStatement? (statement : Text) (start : Nat) : Checked (Option StatementParts) := do
  match ← findTopLevel? statement (byteOf '(') start with
  | none => return none
  | some opening =>
      let named ← slice statement start opening
      let name ← qualifiedName named
      match ← parenSpanFrom? statement (opening + 1) with
      | none => return none
      | some group =>
          match ← locate? statement group.past with
          | none => return none
          | some body =>
              let options ← readOptions statement group.past body
              let listed ← slice statement group.first group.last
              let arguments ← trimBlankLines listed.normalize
              return some ⟨name, arguments, options, body⟩

/-- The record of a definition whose statement has some parts. It starts at `first`, and the text
after it starts at `past`. -/
def assemble (text : Text) (first past : Nat) (kind : Kind) (comment : Option Text)
    (parts : StatementParts) : Checked DefinitionRecord := do
  let before ← sliceTo text first
  let before ← trimBlankLines before
  let after ← sliceFrom text past
  let after ← trimBlankLines after
  return {
    text, before, after, comment
    name := parts.name
    arguments := parts.arguments
    returns := parts.options.returns
    language := parts.options.language
    securityDefiner := parts.options.securityDefiner
    attributes := parts.options.attributes kind
    body := parts.body.shift first
    marker := Marker.find? text }

/-- Reads the first definition in a text. -/
def definition? (text : Text) : Checked (Option DefinitionRecord) :=
  match Header.find? text with
  | none => return none
  | some (front, header, _) => do
      let first := front.byteLength
      let named := first + header.written.byteLength
      let (last, past, comment) ← statementSpan text first
      let statement ← slice text first last
      let start ← minus named first
      match ← readStatement? statement start with
      | none => return none
      | some parts =>
          let record ← assemble text first past header.kind comment parts
          return some record

/-- A search for a mark from the start of a header goes on behind it. -/
theorem splitTopLevel?_header {text before tail : Text} {header : Header} {target : Char}
    (headed : Header.find? text = some (before, header, tail)) (mark : target ∈ Header.marks) :
    Text.splitTopLevel? target (header.written ++ tail) =
      (Text.splitTopLevel? target tail).map fun (front, after) =>
        (header.written ++ front, after) := by
  obtain ⟨_, free⟩ := Header.not_mem_written headed
  refine Text.splitTopLevel?_append (Text.settles_of_plain (fun c member plain => ?_) tail)
    (Text.isTopLevelChar_of_not_mem (free target mark) tail)
  exact free c ((by decide : ['-', '/', '$', '\'', '"'] ⊆ Header.marks) plain) member

/-- The remark on a definition is the first one behind its header. -/
theorem findRemarkFrom?_header {text before tail : Text} {header : Header}
    (headed : Header.find? text = some (before, header, tail)) :
    findRemarkFrom? text (before.byteLength + 1) =
      .ok ((Remark.find? tail).map fun (statement, remark, _) =>
        remark.placed (before ++ header.written ++ statement).byteLength) := by
  obtain ⟨c, inner, shape, ascii, closed⟩ := Header.neverOpens_written headed
  have whole : text = before ++ [c] ++ (inner ++ tail) := by
    rw [Header.eq_append_of_find? headed, shape]
    simp
  have size := (Text.byteLength_concat ascii before).symm
  rw [whole, size, findRemarkFrom?_append,
    Remark.find?_append (Remark.misses_of_neverOpens closed tail), Option.map_map, shape]
  simp [Function.comp_def]

/-- **Where a definition ends.** -/
theorem statementSpan_append {text before tail statement after : Text} {header : Header}
    {remark : Option Remark} (headed : Header.find? text = some (before, header, tail))
    (cut : Script.cutStatement tail = (statement, remark, after)) :
    statementSpan text before.byteLength =
      .ok ((before ++ header.written ++ statement).byteLength,
        (before ++ header.written ++ statement
          ++ (remark.map Remark.written).getD []).byteLength,
        remark.map Remark.text) := by
  have whole := Header.eq_append_of_find? headed
  rw [statementSpan, findRemarkFrom?_header headed, ok_bind]
  unfold Script.cutStatement at cut
  split at cut
  case h_1 found =>
    cases cut
    rw [found]
    simp [Remark.placed, Nat.add_assoc]
    rfl
  case h_2 missed =>
    have semicolon : ';'.toNat < 0x80 := by decide
    have ends := findTopLevel?_append semicolon before (header.written ++ tail)
    rw [← List.append_assoc, ← whole, splitTopLevel?_header headed (by decide)] at ends
    rw [missed, Option.map_none]
    dsimp only
    rw [statementEnd?, ends, ok_bind, Option.map_map, Option.map_map]
    split at cut
    case h_1 ended rest split =>
      cases cut
      simp only [Text.splitStatement?, Option.map_eq_some_iff, Prod.exists, Prod.mk.injEq] at split
      obtain ⟨front, _, found, rfl, rfl⟩ := split
      rw [found]
      simp [Nat.add_assoc]
      rfl
    case h_2 unended =>
      cases cut
      rw [Text.splitStatement?, Option.map_eq_none_iff] at unended
      rw [unended, whole]
      simp
      rfl

/-- The options around a body literal are read without a fault. -/
theorem readOptions_append (front leading trailing : Text) (body : Literal) :
    readOptions (front ++ (leading ++ (body.written ++ trailing))) front.byteLength
        (body.placed (front ++ leading).byteLength) =
      .ok (Options.ofText (leading ++ ' ' :: trailing)) := by
  have first : slice (front ++ (leading ++ (body.written ++ trailing))) front.byteLength
      (front ++ leading).byteLength = .ok leading :=
    slice_eq _ _ (List.append_assoc front leading _).symm rfl
      (Text.byteLength_append front leading).symm
  have second := sliceFrom_append (front ++ leading ++ body.written) trailing
  rw [List.append_assoc, List.append_assoc, Text.byteLength_append _ body.written] at second
  rw [readOptions, Literal.placed, first, ok_bind]
  dsimp only
  rw [second, ok_bind, options_eq]

section Arguments

variable (header name arguments listed : Text)

/-- The opening parenthesis adds one byte to the header and the name. -/
theorem byteLength_opening :
    (header ++ name ++ ['(']).byteLength = header.byteLength + name.byteLength + 1 := by
  rw [Text.byteLength_concat (by decide), Text.byteLength_append]

/-- The closing parenthesis adds one byte to the argument list. -/
theorem byteLength_arguments :
    (header ++ name ++ '(' :: arguments ++ [')']).byteLength =
      (header ++ name ++ ['('] ++ arguments).byteLength + 1 := by
  rw [Text.byteLength_concat (by decide)]
  simp

/-- The text of an argument list stands between its parentheses. -/
theorem slice_arguments :
    slice (header ++ name ++ '(' :: arguments ++ [')'] ++ listed)
        (header.byteLength + name.byteLength + 1)
        (header ++ name ++ ['('] ++ arguments).byteLength =
      .ok arguments := by
  have opening := byteLength_opening header name
  refine slice_eq (header ++ name ++ ['(']) (')' :: listed) (by simp) opening ?_
  rw [← opening, ← Text.byteLength_append]

/-- The body is looked for behind the parenthesis that closes the argument list. -/
theorem locate?_arguments :
    locate? (header ++ name ++ '(' :: arguments ++ [')'] ++ listed)
        ((header ++ name ++ ['('] ++ arguments).byteLength + 1) =
      .ok ((Literal.locate? (some ')') listed).map fun (leading, body, _) =>
        body.placed (header ++ name ++ '(' :: arguments ++ [')'] ++ leading).byteLength) := by
  rw [← byteLength_arguments, locate?_append, List.getLast?_concat]

end Arguments

/-- **Statements by bytes.** -/
theorem readStatement?_append (header statement : Text) :
    readStatement? (header ++ statement) header.byteLength =
      .ok ((Text.splitTopLevel? '(' statement).bind fun (name, named) =>
        (Text.splitParens? named).bind fun (arguments, listed) =>
          (Literal.locate? (some ')') listed).map fun (leading, body, trailing) =>
            { name := QualifiedName.ofText name
              arguments := arguments.normalize.trimBlankLines
              options := Options.ofText (leading ++ ' ' :: trailing)
              body := body.placed
                (header ++ (name ++ '(' :: (arguments ++ ')' :: leading))).byteLength }) := by
  rw [readStatement?, findTopLevel?_append (by decide), ok_bind]
  cases opened : Text.splitTopLevel? '(' statement with
  | none => rfl
  | some parts =>
      obtain ⟨name, named⟩ := parts
      obtain rfl := Text.eq_append_of_splitTopLevel? opened
      have first : slice (header ++ (name ++ '(' :: named)) header.byteLength
          (header.byteLength + name.byteLength) = .ok name :=
        slice_eq _ _ (List.append_assoc header name _).symm rfl rfl
      have group := parenSpanFrom?_append (header ++ name ++ ['(']) named
      rw [List.append_assoc, List.append_assoc, List.singleton_append,
        byteLength_opening] at group
      rw [Option.map_some, Option.bind_some]
      dsimp only
      rw [first, ok_bind, qualifiedName_eq, ok_bind, group, ok_bind]
      cases closed : Text.splitParens? named with
      | none => rfl
      | some parts =>
          obtain ⟨arguments, listed⟩ := parts
          obtain rfl := Text.eq_append_of_splitParens? closed
          have inner := slice_arguments header name arguments listed
          have located := locate?_arguments header name arguments listed
          have whole : header ++ (name ++ '(' :: (arguments ++ ')' :: listed)) =
              header ++ name ++ '(' :: arguments ++ [')'] ++ listed := by
            simp
          rw [Option.map_some, Option.bind_some, whole]
          dsimp only
          rw [located, ok_bind]
          cases found : Literal.locate? (some ')') listed with
          | none => rfl
          | some parts =>
              obtain ⟨leading, body, trailing⟩ := parts
              have options := readOptions_append (header ++ name ++ '(' :: arguments ++ [')'])
                leading trailing body
              have rest := Literal.eq_append_of_locate? found
              rw [List.append_assoc] at rest
              rw [← rest, byteLength_arguments] at options
              rw [Option.map_some, Option.map_some]
              dsimp only
              rw [options, ok_bind, inner, ok_bind, trimBlankLines_eq, ok_bind]
              simp
              rfl

/-- The record is that of the definition whose script has these parts. -/
theorem assemble_append {script : Script} {statement : Text}
    (shape : script.head ++ script.body.written ++ script.trailing = statement) :
    assemble script.text script.before.byteLength
        (script.before ++ script.header.written ++ statement
          ++ (script.remark.map Remark.written).getD []).byteLength
        script.header.kind (script.remark.map Remark.text)
        { name := QualifiedName.ofText script.name
          arguments := script.arguments.normalize.trimBlankLines
          options := Options.ofText script.optionText
          body := script.body.placed (script.header.written ++ script.head).byteLength } =
      .ok (Definition.ofScript script).record := by
  have whole : script.text = script.before ++ script.header.written ++ statement
      ++ (script.remark.map Remark.written).getD [] ++ script.after := by
    rw [← shape, Script.text, Script.prologue_eq, Script.epilogue]
    simp
  have front : sliceTo script.text script.before.byteLength = .ok script.before := by
    rw [whole]
    simp only [List.append_assoc, sliceTo_append]
  have back := sliceFrom_append (script.before ++ script.header.written ++ statement
    ++ (script.remark.map Remark.written).getD []) script.after
  rw [← whole] at back
  have first : script.bodySpan.1 =
      script.before.byteLength + (script.header.written ++ script.head).byteLength := by
    rw [Script.bodySpan, Script.prologue_eq, List.append_assoc, Text.byteLength_append]
  rw [assemble, front, ok_bind, trimBlankLines_eq, ok_bind, back, ok_bind, trimBlankLines_eq,
    ok_bind, Literal.shift_placed, ← first]
  rfl

/-- **Definitions by bytes.** The reading makes no access that fails, and it gives the record of the
definition. -/
theorem definition?_eq (text : Text) :
    definition? text = .ok ((Definition.ofText? text).map Definition.record) := by
  unfold definition?
  cases headed : Header.find? text with
  | none =>
      rw [Definition.ofText?, Script.ofText?, headed]
      rfl
  | some parts =>
      obtain ⟨before, header, tail⟩ := parts
      cases cut : Script.cutStatement tail with
      | mk statement others =>
        obtain ⟨remark, after⟩ := others
        have inner : slice text before.byteLength
            (before ++ header.written ++ statement).byteLength =
              .ok (header.written ++ statement) := by
          refine slice_eq before ((remark.map Remark.written).getD [] ++ after) ?_ rfl (by simp)
          rw [Header.eq_append_of_find? headed, Script.eq_append_of_cutStatement cut]
          simp
        dsimp only
        rw [statementSpan_append headed cut, ok_bind]
        dsimp only
        rw [inner, ok_bind, minus_add, ok_bind, readStatement?_append, ok_bind, Definition.ofText?,
          Script.ofText?, headed]
        simp only [cut]
        cases opened : Text.splitTopLevel? '(' statement with
        | none => rfl
        | some parts =>
            obtain ⟨name, named⟩ := parts
            simp only [Option.bind_some]
            cases closed : Text.splitParens? named with
            | none => rfl
            | some parts =>
                obtain ⟨arguments, listed⟩ := parts
                simp only [Option.bind_some]
                cases located : Literal.locate? (some ')') listed with
                | none => rfl
                | some parts =>
                    obtain ⟨leading, body, trailing⟩ := parts
                    have parsed : Script.ofText? text = some
                        ⟨before, header, name, arguments, leading, body, trailing, remark, after⟩ :=
                      Script.ofText?_eq_some_iff.mpr
                        ⟨tail, statement, named, listed, headed, cut, opened, closed, located⟩
                    have shape := @Script.eq_head_append statement named listed
                      ⟨before, header, name, arguments, leading, body, trailing, remark, after⟩
                      opened closed located
                    have assembled := assemble_append shape.symm
                    rw [Script.text_of_ofText? parsed] at assembled
                    exact congrArg (Except.map some) assembled

end Checked

namespace DefinitionRecord

/-- Everything recorded of a definition that counts as a change when it changes. -/
def summary (record : DefinitionRecord) : Text :=
  [record.attributes.kind.text, record.name.qualified, record.arguments, record.returns,
      record.language.text, (record.attributes.function?.map FunctionAttributes.summary).getD [],
      boolText record.securityDefiner].flatMap (· ++ [Definition.fieldEnd])
    ++ (record.body.body.normalize.lines.filter fun line => (Marker.find? line).isNone).flatMap
      (· ++ ['\n'])
    ++ Definition.fieldEnd :: record.comment.getD []

/-- The digest of the summary of a record in hexadecimal digits. -/
def fingerprint (record : DefinitionRecord) : Text :=
  Hex.encode (Sha256.digest (Utf8.encode record.summary))

/-- The summary of a definition is made of what is recorded of it. -/
theorem summary_record (definition : Definition) :
    definition.record.summary = definition.summary :=
  rfl

end DefinitionRecord

namespace Checked

/-! ### What is done with a definition -/

/-- The fingerprint of the first definition in a text. -/
def fingerprint? (text : Text) : Checked (Option Text) := do
  let found ← definition? text
  return found.map DefinitionRecord.fingerprint

/-- The body of a record as written, with its delimiters. -/
def literalText (record : DefinitionRecord) : Checked Text :=
  slice record.text record.body.first record.body.last

/-- The text of a record with other text in place of the body. -/
def splice (record : DefinitionRecord) (replacement : Text) : Checked Text := do
  let front ← sliceTo record.text record.body.first
  let back ← sliceFrom record.text record.body.last
  return front ++ replacement ++ back

/-- The text with other text in place of the body of the first definition. -/
def replaceBody? (text replacement : Text) : Checked (Option Text) := do
  match ← definition? text with
  | none => return none
  | some record =>
      let replaced ← splice record replacement
      return some replaced

/-- **Fingerprints.** The fingerprint of a text is computed without a fault. -/
theorem fingerprint?_eq (text : Text) :
    fingerprint? text = .ok ((Definition.ofText? text).map Definition.fingerprint) := by
  have same : DefinitionRecord.fingerprint ∘ Definition.record = Definition.fingerprint := by
    funext definition
    exact congrArg (fun summary => Hex.encode (Sha256.digest (Utf8.encode summary)))
      (DefinitionRecord.summary_record definition)
  rw [fingerprint?, definition?_eq, ok_bind, Option.map_map, same]
  rfl

/-- The literal of a definition is sliced without a fault. -/
theorem literalText_record (definition : Definition) :
    literalText definition.record = .ok definition.script.body.written :=
  slice_eq _ _ rfl rfl rfl

/-- A literal is put in the place of the body without a fault. -/
theorem splice_record (definition : Definition) (replacement : Text) :
    splice definition.record replacement = .ok (definition.script.splice replacement) := by
  have front := sliceTo_append definition.script.prologue
    (definition.script.body.written ++ definition.script.epilogue)
  have back := sliceFrom_append (definition.script.prologue ++ definition.script.body.written)
    definition.script.epilogue
  rw [← List.append_assoc] at front
  rw [Text.byteLength_append] at back
  rw [splice, Definition.record, Literal.placed, Script.bodySpan, Script.text]
  dsimp only
  rw [front, ok_bind, back, ok_bind]
  rfl

/-- **Splices.** The body of a text is replaced without a fault. -/
theorem replaceBody?_eq (text replacement : Text) :
    replaceBody? text replacement =
      .ok ((Definition.ofText? text).map fun definition =>
        definition.script.splice replacement) := by
  rw [replaceBody?, definition?_eq, ok_bind]
  cases Definition.ofText? text with
  | none => rfl
  | some definition =>
      rw [Option.map_some]
      dsimp only
      rw [splice_record]
      rfl

end Checked

end RoutineScripts
