import RoutineScripts.Proofs.Routine.Summary

/-!
# Changes of a body

The digest of a definition is taken over the lines of its body that carry no marker. So a change of
the code shows unless it is on a line that carries a marker as well: bodies with the same digest
have the same lines of code when each marker stands on a line that holds nothing but a comment
(`Definition.encode_summary_eq_iff_code`). The link symbol after the first literal is not digested
at all, and neither is code beside a marker (`Definition.encode_summary_eq_of_changed`).
-/

namespace RoutineScripts

open Text

/-- The glyphs of a text line by line, without the line feeds. -/
def Glyph.lines : List Glyph → List (List Glyph)
  | [] => []
  | glyph :: rest =>
      if glyph.char = '\n' then [] :: lines rest
      else match lines rest with
        | [] => [[glyph]]
        | line :: others => (glyph :: line) :: others

/-- The lines of some glyphs spell the lines of their text. -/
theorem Glyph.map_ofGlyphs_lines (glyphs : List Glyph) :
    (lines glyphs).map ofGlyphs = (ofGlyphs glyphs).lines := by
  induction glyphs with
  | nil => rfl
  | cons glyph rest ih =>
      have chars : ofGlyphs (glyph :: rest) = glyph.char :: ofGlyphs rest := rfl
      rw [chars, lines, Text.lines, ← ih]
      split
      case isTrue => rfl
      case isFalse => cases lines rest <;> rfl

/-- Whether a line carries a marker and holds nothing but a comment. -/
def Marker.isAlone (line : List Glyph) : Bool :=
  !isPlain (ofGlyphs line) && line.all fun glyph => glyph.isComment || isBlank glyph.char

/-- The link symbol of a body that is written as two literals. -/
def Literal.symbol? : Literal → Option Text
  | quoted _ (some (_, symbol)) => some symbol
  | _ => none

namespace Definition

/-- The lines of a body, each with what its characters are for the scan of the body. -/
def bodyLines (definition : Definition) : List (List Glyph) :=
  Glyph.lines definition.bodyText.normalize.scan

/-- The lines of a body without those that hold a marker in a comment and nothing else. -/
def codeLines (definition : Definition) : List Text :=
  (definition.bodyLines.filter fun line => !Marker.isAlone line).map ofGlyphs

/-- No marker stands beside code. -/
def MarkersAlone (definition : Definition) : Prop :=
  ∀ line ∈ definition.bodyLines, Marker.isPlain (ofGlyphs line) = false →
    Marker.isAlone line = true

instance (definition : Definition) : Decidable definition.MarkersAlone :=
  inferInstanceAs (Decidable (∀ line ∈ definition.bodyLines, _))

/-- Bodies with the same code and the same link symbol. -/
structure SameContent (first second : Definition) : Prop where
  code : first.codeLines = second.codeLines
  symbol : first.script.body.symbol? = second.script.body.symbol?

variable {first second definition : Definition}

/-- The lines that are digested are those of the code that carry no marker. -/
theorem plainLines_eq_filter (definition : Definition) :
    definition.plainLines = definition.codeLines.filter Marker.isPlain := by
  have lines : definition.bodyText.normalize.lines = definition.bodyLines.map ofGlyphs := by
    rw [bodyLines, Glyph.map_ofGlyphs_lines, ofGlyphs_scan]
  rw [plainLines, lines, codeLines, List.filter_map, List.filter_map, List.filter_filter]
  congr 1
  refine List.filter_congr fun line _ => ?_
  rw [Function.comp_apply, Function.comp_apply, Marker.isAlone]
  cases plain : Marker.isPlain (ofGlyphs line) with
  | true => rw [Marker.isPlain] at plain; simp [plain]
  | false => rw [Marker.isPlain] at plain; simp [plain]

/-- Where no marker stands beside code, all code is digested. -/
theorem MarkersAlone.plainLines_eq (alone : definition.MarkersAlone) :
    definition.plainLines = definition.codeLines := by
  rw [plainLines_eq_filter, List.filter_eq_self]
  intro line member
  obtain ⟨glyphs, kept, rfl⟩ := List.mem_map.mp member
  obtain ⟨inside, notAlone⟩ := List.mem_filter.mp kept
  rw [← Bool.not_eq_false]
  intro marked
  rw [alone glyphs inside marked] at notAlone
  cases notAlone

/-- **Which changes of a body show.** Let two texts without U+0000 define routines. The same bytes
are digested for both exactly if they declare the same and have the same code, up to lines that
carry a marker. So where no marker stands beside code, and the link symbols are the same, the bodies
have the same content. -/
theorem encode_summary_eq_iff_code {firstText secondText : Text}
    (firstParsed : ofText? firstText = some first) (secondParsed : ofText? secondText = some second)
    (firstFree : '\x00' ∉ firstText) (secondFree : '\x00' ∉ secondText) :
    (Utf8.encode first.summary = Utf8.encode second.summary ↔
      first.Declares second ∧
        first.codeLines.filter Marker.isPlain = second.codeLines.filter Marker.isPlain) ∧
    (Utf8.encode first.summary = Utf8.encode second.summary →
      first.MarkersAlone → second.MarkersAlone →
      first.script.body.symbol? = second.script.body.symbol? → first.SameContent second) := by
  have agree : Utf8.encode first.summary = Utf8.encode second.summary ↔ first.Agrees second :=
    Utf8.encode_injective.eq_iff.trans ((clean_of_ofText? firstParsed firstFree).summary_eq_iff
      (clean_of_ofText? secondParsed secondFree))
  rw [agree]
  refine ⟨⟨fun agrees => ⟨agrees.toDeclares, ?_⟩, fun ⟨declares, code⟩ => ⟨declares, ?_⟩⟩,
    fun agrees firstAlone secondAlone symbol => ⟨?_, symbol⟩⟩
  · rw [← plainLines_eq_filter, ← plainLines_eq_filter, agrees.lines]
  · rw [plainLines_eq_filter, plainLines_eq_filter, code]
  · rw [← firstAlone.plainLines_eq, ← secondAlone.plainLines_eq, agrees.lines]

/-- A body of two literals, and the same body with other blanks and a marker on its own line. -/
theorem encode_summary_eq_iff_code_linked :
    let plain := "CREATE FUNCTION f() LANGUAGE c AS 'o', 's'".toList
    let marked := ("CREATE FUNCTION f() AS '\n-- @GUID " ++
      "\x7b9968C379-A8C4-4D5A-9F23-4F79E7C3B5E9\x7d\r\no','s' LANGUAGE c;").toList
    ∃ first second, ofText? plain = some first ∧ ofText? marked = some second ∧
      first.script.body ≠ second.script.body ∧ first.Declares second ∧
      first.SameContent second := by
  intro plain marked
  have facts : (ofText? plain).map (fun definition =>
        (definition.summary, decide definition.MarkersAlone, definition.script.body.symbol?)) =
      (ofText? marked).map (fun definition =>
        (definition.summary, decide definition.MarkersAlone, definition.script.body.symbol?)) ∧
      (ofText? marked).map (fun definition => decide definition.MarkersAlone) = some true ∧
      (ofText? plain).map (·.script.body) ≠ (ofText? marked).map (·.script.body) := by
    decide +kernel
  obtain ⟨second, secondParsed, secondAlone⟩ := Option.map_eq_some_iff.mp facts.2.1
  rw [secondParsed] at facts
  obtain ⟨first, firstParsed, parts⟩ := Option.map_eq_some_iff.mp facts.1
  rw [firstParsed] at facts
  obtain ⟨same, alone, symbol⟩ : first.summary = second.summary ∧
      decide first.MarkersAlone = decide second.MarkersAlone ∧
      first.script.body.symbol? = second.script.body.symbol? := by simpa using parts
  obtain ⟨agrees, content⟩ := encode_summary_eq_iff_code firstParsed secondParsed
    (by decide +kernel) (by decide +kernel)
  have bytes := congrArg Utf8.encode same
  refine ⟨first, second, firstParsed, secondParsed, fun equal => ?_, (agrees.mp bytes).1,
    content bytes (of_decide_eq_true (alone.trans secondAlone)) (of_decide_eq_true secondAlone)
      symbol⟩
  exact facts.2.2 (congrArg some equal)

/-- **Changes that do not show.** Routines with different link symbols have the same digest, and so
have routines with different code on the line of a marker. -/
theorem encode_summary_eq_of_changed :
    let linked (symbol : String) := ("CREATE FUNCTION f() AS 'o', '" ++ symbol ++ "'").toList
    let noted (number : String) := ("CREATE FUNCTION f() AS $$" ++ number ++
      " -- @GUID \x7b9968C379-A8C4-4D5A-9F23-4F79E7C3B5E9\x7d$$").toList
    ∀ texts ∈ [(linked "a", linked "b"), (noted "1", noted "2")],
      '\x00' ∉ texts.1 ∧ '\x00' ∉ texts.2 ∧
      ∃ first second, ofText? texts.1 = some first ∧ ofText? texts.2 = some second ∧
        Utf8.encode first.summary = Utf8.encode second.summary ∧ ¬ first.SameContent second := by
  intro linked noted texts member
  have facts : ∀ texts ∈ [(linked "a", linked "b"), (noted "1", noted "2")],
      ('\x00' ∉ texts.1 ∧ '\x00' ∉ texts.2) ∧
      (ofText? texts.1).map summary = (ofText? texts.2).map summary ∧
      (ofText? texts.2).isSome = true ∧
      (ofText? texts.1).map (fun definition =>
        (definition.codeLines, definition.script.body.symbol?)) ≠
      (ofText? texts.2).map (fun definition =>
        (definition.codeLines, definition.script.body.symbol?)) := by decide +kernel
  obtain ⟨⟨firstFree, secondFree⟩, same, parsed, differs⟩ := facts texts member
  obtain ⟨second, secondParsed⟩ := Option.isSome_iff_exists.mp parsed
  rw [secondParsed] at same differs
  obtain ⟨first, firstParsed, bytes⟩ := Option.map_eq_some_iff.mp same
  rw [firstParsed] at differs
  refine ⟨firstFree, secondFree, first, second, firstParsed, secondParsed,
    congrArg Utf8.encode bytes, fun content => differs ?_⟩
  rw [Option.map_some, Option.map_some, content.code, content.symbol]

end Definition

end RoutineScripts
