import RoutineScripts.Proofs.Routine.Header
import RoutineScripts.Proofs.Routine.Literal
import RoutineScripts.Proofs.Text.Offset
import RoutineScripts.Routine.Definition

/-!
# Exchanging the body

The content of a dollar-quoted body has no part in how the rest of a script is read. What stands
before the body is read alike whatever literal with the same tag follows (`Script.OpensBody`), so a
script with another body either has no definition or has the same one up to the literal
(`Script.OpensBody.eq_of_ofText?`). Only a comment statement that opens too early can make the
difference; without one, everything after the body is read alike as well
(`Definition.ofText?_splice`).
-/

namespace RoutineScripts

namespace Text

/-- The part of a text in a byte span. -/
def slice? (text : Text) (span : Nat × Nat) : Option Text :=
  match text.splitAtByte? span.2 with
  | none => none
  | some (front, _) => (front.splitAtByte? span.1).map Prod.snd

/-- The slice between two boundaries is the part between them. -/
theorem slice?_append (front inside back : Text) :
    slice? (front ++ inside ++ back)
      (front.byteLength, front.byteLength + inside.byteLength) = some inside := by
  rw [slice?, ← byteLength_append, splitAtByte?_append]
  simp only [splitAtByte?_append, Option.map_some]

/-- A character at top level in a front of a text makes a split inside that front. -/
theorem splitTopLevel?_of_mem {target : Char} {front back : Text} {glyph : Glyph}
    (member : glyph ∈ glyphs front back) (matched : glyph.isTopLevelChar target = true) :
    ∃ before after, splitTopLevel? target (front ++ back) = some (before, after) ∧
      before.length < front.length := by
  have scanned : scan (front ++ back) =
      glyphs front back ++ (ScanState.start.after front back).scan back :=
    ScanState.start.scan_append front back
  cases found : splitTopLevel? target (front ++ back) with
  | none =>
      rw [splitTopLevel?_eq, Option.map_eq_none_iff, search_eq_none_iff, misses_topLevelTest_iff,
        scanned] at found
      rw [found.1 glyph (List.mem_append_left _ member)] at matched
      cases matched
  | some parts =>
      obtain ⟨before, after⟩ := parts
      refine ⟨before, after, rfl, ?_⟩
      simp only [splitTopLevel?_eq, Option.map_eq_some_iff, Prod.exists, Prod.mk.injEq,
        search_eq_some_iff, misses_topLevelTest_iff] at found
      obtain ⟨passed, _, ⟨rest, split, none, _⟩, rfl, _⟩ := found
      apply Nat.lt_of_not_le
      intro long
      have covered : glyphs front back <+: passed := by
        refine List.prefix_of_prefix_length_le ⟨_, scanned.symm⟩ ⟨rest, split.symm⟩ ?_
        simpa [glyphs, ofGlyphs] using long
      rw [none glyph (covered.subset member)] at matched
      cases matched

end Text

namespace Remark

/-- In a text, no comment statement opens at a place from `first` on and before `last`. -/
def OpensNowhere (text : Text) (first last : Nat) : Prop :=
  ∀ place < last, first ≤ place → opening (text.drop place) = none

instance (text : Text) (first last : Nat) : Decidable (OpensNowhere text first last) :=
  inferInstanceAs (Decidable (∀ place < last, first ≤ place → opening (text.drop place) = none))

/-- Where none opens, a search for one goes on. -/
theorem OpensNowhere.misses {passed front back : Text} {first last : Nat}
    (quiet : OpensNowhere (passed ++ front ++ back) first last) (lower : first ≤ passed.length)
    (upper : (passed ++ front).length ≤ last) :
    Misses (fun _ rest => opening rest) none front back := by
  rintro before c after rfl
  have inside : (passed ++ before).length < last := by
    refine Nat.lt_of_lt_of_le ?_ upper
    simp only [List.length_append, List.length_cons]
    omega
  have refused := quiet (passed ++ before).length inside (by
    rw [List.length_append]
    omega)
  rwa [List.append_assoc, List.append_assoc, ← List.append_assoc, List.drop_left] at refused

/-- A front in which no comment statement opens is passed over. -/
theorem find?_append {front back : Text}
    (misses : Misses (fun _ rest => opening rest) none front back) :
    find? (front ++ back) =
      (find? back).map fun (before, remark, after) => (front ++ before, remark, after) := by
  rw [find?, find?, search_append misses,
    search_previous (fun _ _ _ => rfl) _ none]
  rcases search (fun _ rest => opening rest) none back with _ | ⟨before, words, _ | ⟨c, rest⟩⟩
  · rfl
  · rfl
  · simp only [Option.map_some]
    cases findValue? rest with
    | none => rfl
    | some value => simp only [Option.map_map]; rfl

end Remark

namespace Script

open Text

/-- The steps by which a script is cut from a text. -/
theorem ofText?_eq_some_iff {text : Text} {script : Script} :
    ofText? text = some script ↔
      ∃ tail statement named listed,
        Header.find? text = some (script.before, script.header, tail) ∧
        cutStatement tail = (statement, script.remark, script.after) ∧
        splitTopLevel? '(' statement = some (script.name, named) ∧
        splitParens? named = some (script.arguments, listed) ∧
        Literal.locate? (some ')') listed =
          some (script.leading, script.body, script.trailing) := by
  constructor
  · intro found
    unfold ofText? at found
    split at found
    case h_1 => cases found
    case h_2 before header tail headed =>
      cases cut : cutStatement tail with
      | mk statement others =>
        simp only [cut] at found
        split at found
        case h_1 => cases found
        case h_2 name named opened =>
          split at found
          case h_1 => cases found
          case h_2 arguments listed closed =>
            simp only [Option.map_eq_some_iff, Prod.exists] at found
            obtain ⟨leading, body, trailing, located, rfl⟩ := found
            exact ⟨tail, statement, named, listed, headed, cut, opened, closed, located⟩
  · rintro ⟨tail, statement, named, listed, headed, cut, opened, closed, located⟩
    rw [ofText?, headed]
    simp only [cut, opened, closed, located, Option.map_some]

/-- The text between the header and the body literal. -/
def head (script : Script) : Text :=
  script.name ++ '(' :: (script.arguments ++ ')' :: script.leading)

/-- What precedes the body is the text before the header, the header and the head. -/
theorem prologue_eq (script : Script) :
    script.prologue = script.before ++ script.header.written ++ script.head := by
  simp [prologue, head]

/-- A statement is its head, its body and what follows it. -/
theorem eq_head_append {statement named listed : Text} {script : Script}
    (opened : splitTopLevel? '(' statement = some (script.name, named))
    (closed : splitParens? named = some (script.arguments, listed))
    (located : Literal.locate? (some ')') listed =
      some (script.leading, script.body, script.trailing)) :
    statement = script.head ++ script.body.written ++ script.trailing := by
  rw [eq_append_of_splitTopLevel? opened, eq_append_of_splitParens? closed,
    Literal.eq_append_of_locate? located]
  simp [head]

/-- What stands before the body settles when each of its parts does. -/
theorem settles_head {script : Script} {back : Text}
    (name : Settles script.name ('(' :: (script.arguments ++ ')' :: (script.leading ++ back))))
    (arguments : Settles script.arguments (')' :: (script.leading ++ back)))
    (leading : Settles script.leading back) : Settles script.head back := by
  have plain (c : Char) (isPlain : c ∉ ['-', '/', '$', '\'', '"']) (rest : Text) :
      Settles [c] rest :=
    settles_of_plain (by simpa using isPlain) rest
  have listed : Settles (script.arguments ++ ([')'] ++ script.leading)) back := by
    refine Settles.append (by simpa using arguments) ?_
    exact Settles.append (plain ')' (by decide) _) leading
  have whole : Settles (script.name ++ (['('] ++ (script.arguments ++ ([')'] ++ script.leading))))
      back := by
    refine Settles.append (by simpa using name) ?_
    exact Settles.append (plain '(' (by decide) _) listed
  simpa [head] using whole

/-- What stands before the body literal is read alike whatever dollar-quoted literal with the given
tag follows. -/
structure OpensBody (script : Script) (tag : Text) : Prop where
  isTag : IsDollarTag tag
  headed : ∀ rest, Header.find?
      (script.before ++ script.header.written ++ script.name ++ '(' :: rest) =
    some (script.before, script.header, script.name ++ '(' :: rest)
  named : ∀ rest, splitTopLevel? '(' (script.name ++ '(' :: rest) = some (script.name, rest)
  closed : ∀ rest, splitParens? (script.arguments ++ ')' :: rest) = some (script.arguments, rest)
  leads : Literal.LeadsTo (some ')') script.leading tag

/-- A script that was parsed opens its body, and the tag of the body comes first at its end. -/
theorem opensBody_of_ofText? {text tag content : Text} {script : Script}
    (found : ofText? text = some script) (dollar : script.body = .dollar tag content) :
    OpensBody script tag ∧ FirstAfter tag content (content ++ tag) := by
  obtain ⟨tail, statement, named, listed, headed, cut, opened, closed, located⟩ :=
    ofText?_eq_some_iff.mp found
  rw [dollar] at located
  obtain ⟨leads, isTag, first⟩ := Literal.leadsTo_of_locate? located
  refine ⟨⟨isTag, ?_, ?_, ?_, leads⟩, first⟩
  · have shape : tail = script.name ++ '(' :: (named ++
        ((script.remark.map Remark.written).getD [] ++ script.after)) := by
      rw [eq_append_of_cutStatement cut, eq_append_of_splitTopLevel? opened]
      simp
    have whole := Header.eq_append_of_find? headed
    rw [shape, ← List.append_assoc] at whole
    rw [shape, whole] at headed
    exact Header.find?_congr headed
  · exact splitTopLevel?_congr inert_open opened
  · exact (settles_of_splitParens? closed).2

namespace OpensBody

variable {script : Script} {tag : Text}

/-- The head of a script settles before the tag. -/
theorem settles (opens : OpensBody script tag) (back : Text) :
    Settles script.head (tag ++ back) := by
  obtain ⟨_, name, _⟩ := (splitTopLevel?_eq_some_iff inert_open).mp
    (opens.named (script.arguments ++ ')' :: (script.leading ++ (tag ++ back))))
  obtain ⟨arguments, _⟩ := settles_of_splitParens?
    (opens.closed (script.leading ++ (tag ++ back)))
  exact settles_head name arguments (opens.leads.settles back)

/-- The glyphs before a body do not depend on what follows the tag. -/
theorem glyphs_eq (opens : OpensBody script tag) (back other : Text) :
    glyphs script.head (tag ++ other) = glyphs script.head (tag ++ back) := by
  obtain ⟨name, shape, _⟩ := opens.isTag
  have settled := opens.settles back
  rw [shape] at settled ⊢
  exact (Settles.congr settled (by decide) _).2

/-- A text with the prologue of a script is parsed with the body and the ending it has. -/
theorem ofText?_eq (opens : OpensBody script tag) {other back trailing after : Text}
    {remark : Option Remark} (first : FirstAfter tag other (other ++ tag))
    (cut : cutStatement (script.head ++ (tag ++ other ++ tag) ++ back) =
      (script.head ++ (tag ++ other ++ tag) ++ trailing, remark, after)) :
    ofText? (script.prologue ++ (tag ++ other ++ tag) ++ back) =
      some { script with body := .dollar tag other, trailing, remark, after } := by
  refine ofText?_eq_some_iff.mpr ⟨_, _, _, _, ?_, cut, ?_, opens.closed _,
    opens.leads.locate?_eq opens.isTag first trailing⟩
  · have headed := opens.headed
      (script.arguments ++ ')' :: script.leading ++ (tag ++ other ++ tag) ++ back)
    simpa [prologue, head] using headed
  · have named := opens.named
      (script.arguments ++ ')' :: (script.leading ++ (tag ++ other ++ tag) ++ trailing))
    simpa [head] using named

/-- **The body decides on nothing before it.** With another body, a script has no definition, or it
has one with the same parts up to the body. -/
theorem eq_of_ofText? (opens : OpensBody script tag) {other back : Text} {exchanged : Script}
    (first : FirstAfter tag other (other ++ tag))
    (found : ofText? (script.prologue ++ (tag ++ other ++ tag) ++ back) = some exchanged) :
    exchanged =
      { script with
        body := .dollar tag other
        trailing := exchanged.trailing
        remark := exchanged.remark
        after := exchanged.after } := by
  obtain ⟨tail, statement, named, listed, headed, cut, opened, closed, located⟩ :=
    ofText?_eq_some_iff.mp found
  obtain rfl : tail = script.head ++ (tag ++ other ++ tag) ++ back := by
    have known := opens.headed
      (script.arguments ++ ')' :: script.leading ++ (tag ++ other ++ tag) ++ back)
    have same : script.prologue ++ (tag ++ other ++ tag) ++ back =
        script.before ++ script.header.written ++ script.name ++ '(' ::
          (script.arguments ++ ')' :: script.leading ++ (tag ++ other ++ tag) ++ back) := by
      simp [prologue]
    rw [same, known] at headed
    simpa [head] using (congrArg (fun found => found.2.2) (Option.some.inj headed)).symm
  have whole := eq_append_of_cutStatement cut
  rw [List.append_assoc statement] at whole
  by_cases complete : (script.head ++ (tag ++ other ++ tag)).length ≤ statement.length
  · obtain ⟨trailing, rfl⟩ : script.head ++ (tag ++ other ++ tag) <+: statement :=
      List.prefix_of_prefix_length_le ⟨back, rfl⟩ ⟨_, whole.symm⟩ complete
    have known := opens.ofText?_eq first cut
    rw [found] at known
    have same := Option.some.inj known
    have ends : exchanged.trailing = trailing := congrArg Script.trailing same
    rw [ends]
    exact same
  · -- A definition that ends inside the literal would be complete in the longer text as well,
    -- where the literal is known to go on.
    exfalso
    obtain ⟨missing, split⟩ : statement <+: script.head ++ (tag ++ other ++ tag) :=
      List.prefix_of_prefix_length_le ⟨_, whole.symm⟩ ⟨back, rfl⟩ (Nat.le_of_not_le complete)
    have short : missing ≠ [] := by
      rintro rfl
      rw [List.append_nil] at split
      exact complete (Nat.le_of_eq (by rw [split]))
    have opening := splitTopLevel?_congr inert_open opened (named ++ missing)
    have listing := (settles_of_splitParens? closed).2 (listed ++ missing)
    have reopened : exchanged.name ++ '(' :: (named ++ missing) =
        script.name ++ '(' :: (script.arguments ++ ')' :: (script.leading ++
          (tag ++ other ++ tag))) := by
      rw [← List.cons_append, ← List.append_assoc, ← eq_append_of_splitTopLevel? opened, split]
      simp [head]
    rw [reopened, opens.named] at opening
    obtain ⟨_, relisted⟩ := Prod.mk.inj (Option.some.inj opening)
    have reclosed : exchanged.arguments ++ ')' :: (listed ++ missing) =
        script.arguments ++ ')' :: (script.leading ++ (tag ++ other ++ tag)) := by
      rw [← List.cons_append, ← List.append_assoc, ← eq_append_of_splitParens? closed, relisted]
    rw [reclosed, opens.closed] at listing
    obtain ⟨_, remaining⟩ := Prod.mk.inj (Option.some.inj listing)
    rw [opens.leads.locate?_eq_none opens.isTag first remaining short] at located
    cases located

end OpensBody

/-- A front in which no comment statement opens and no statement ends is passed over. -/
theorem cutStatement_append {front back : Text}
    (misses : Misses (fun _ rest => Remark.opening rest) none front back)
    (settles : Settles front back)
    (goesOn : Remark.find? back = none →
      ∀ glyph ∈ glyphs front back, glyph.isTopLevelChar ';' = false) :
    cutStatement (front ++ back) = (front ++ (cutStatement back).1, (cutStatement back).2) := by
  rw [cutStatement, cutStatement, Remark.find?_append misses]
  cases remarked : Remark.find? back with
  | some parts => rfl
  | none =>
      rw [splitStatement?, splitStatement?, splitTopLevel?_append settles (goesOn remarked)]
      cases splitTopLevel? ';' back with
      | none => rfl
      | some parts => simp

/-- What leads up to a body and the body are passed over together. -/
theorem OpensBody.cutStatement_append {script : Script} {tag other back : Text}
    (opens : OpensBody script tag) (first : FirstAfter tag other (other ++ tag))
    (misses : Misses (fun _ rest => Remark.opening rest) none
      (script.head ++ (tag ++ other ++ tag)) back)
    (goesOn : Remark.find? back = none →
      ∀ glyph ∈ glyphs script.head (tag ++ (other ++ tag ++ back)),
        glyph.isTopLevelChar ';' = false) :
    cutStatement (script.head ++ (tag ++ other ++ tag) ++ back) =
      (script.head ++ (tag ++ other ++ tag) ++ (cutStatement back).1, (cutStatement back).2) := by
  obtain ⟨literalSettles, nothing⟩ := settles_dollar opens.isTag first back
  have regroup : tag ++ (other ++ tag ++ back) = tag ++ other ++ tag ++ back := by simp
  have headSettles := opens.settles (other ++ tag ++ back)
  rw [regroup] at headSettles goesOn
  refine Script.cutStatement_append misses (headSettles.append literalSettles) ?_
  intro bare glyph member
  rw [headSettles.glyphs_append, List.mem_append] at member
  rcases member with before | inside
  · exact goesOn bare glyph before
  · rw [Glyph.isTopLevelChar, nothing glyph inside, Bool.false_and]

/-- The statement of a script that was parsed is cut from what follows its header. -/
theorem cutStatement_of_ofText? {text : Text} {script : Script}
    (found : ofText? text = some script) :
    cutStatement (script.head ++ script.body.written ++ script.epilogue) =
      (script.head ++ script.body.written ++ script.trailing, script.remark, script.after) := by
  obtain ⟨tail, statement, named, listed, _, cut, opened, closed, located⟩ :=
    ofText?_eq_some_iff.mp found
  have whole := eq_append_of_cutStatement cut
  rw [eq_head_append opened closed located] at whole cut
  rw [whole] at cut
  simpa [epilogue] using cut

/-- A definition with a complete body does not end before the body. -/
theorem goesOn_of_ofText? {text : Text} {script : Script} (found : ofText? text = some script)
    (nonempty : script.body.written ≠ [])
    (misses : Misses (fun _ rest => Remark.opening rest) none
      (script.head ++ script.body.written) script.epilogue)
    (bare : Remark.find? script.epilogue = none) :
    ∀ glyph ∈ glyphs script.head (script.body.written ++ script.epilogue),
      glyph.isTopLevelChar ';' = false := by
  intro glyph member
  rw [Bool.eq_false_iff]
  intro matched
  obtain ⟨before, rest, split, short⟩ := splitTopLevel?_of_mem member matched
  have cut := cutStatement_of_ofText? found
  rw [cutStatement, Remark.find?_append misses, bare, Option.map_none, splitStatement?,
    List.append_assoc script.head, split] at cut
  have lengths := congrArg (fun parts => parts.1.length) cut
  have positive := List.length_pos_iff.mpr nonempty
  simp only [Option.map_some, List.length_append, List.length_singleton] at lengths
  omega

/-- Where no comment statement opens before the end of a literal, none is found there. -/
theorem misses_of_opensNowhere {script : Script} {literal : Text}
    (quiet : Remark.OpensNowhere (script.splice literal) script.before.length
      (script.prologue ++ literal).length) :
    Misses (fun _ rest => Remark.opening rest) none (script.head ++ literal) script.epilogue := by
  rw [splice, prologue_eq, List.append_assoc (script.before ++ script.header.written)] at quiet
  exact quiet.misses (by simp) (Nat.le_refl _)

/-- **Only the body changes.** Where no comment statement opens before the end of the body, a script
with another body is the same script with that body. -/
theorem ofText?_splice {text tag content other : Text} {script : Script}
    (found : ofText? text = some script) (dollar : script.body = .dollar tag content)
    (first : FirstAfter tag other (other ++ tag))
    (quiet : Remark.OpensNowhere text script.before.length
      (script.prologue ++ script.body.written).length)
    (quietAfter : Remark.OpensNowhere (script.splice (tag ++ other ++ tag)) script.before.length
      (script.prologue ++ (tag ++ other ++ tag)).length) :
    ofText? (script.splice (tag ++ other ++ tag)) =
      some { script with body := .dollar tag other } := by
  obtain ⟨opens, firstContent⟩ := opensBody_of_ofText? found dollar
  have written : script.body.written = tag ++ content ++ tag := by rw [dollar]; rfl
  rw [← text_of_ofText? found] at quiet
  have misses := misses_of_opensNowhere quiet
  have goesOn := goesOn_of_ofText? found (by simp [written, opens.isTag.ne_nil]) misses
  have cut := cutStatement_of_ofText? found
  rw [written] at misses goesOn cut
  have regroup (inner : Text) : tag ++ inner ++ tag ++ script.epilogue =
      tag ++ (inner ++ tag ++ script.epilogue) := by simp
  rw [regroup] at goesOn
  rw [opens.cutStatement_append firstContent misses goesOn] at cut
  obtain ⟨trailing, rest⟩ := Prod.mk.inj cut
  rw [opens.glyphs_eq (other ++ tag ++ script.epilogue)] at goesOn
  have again := opens.cutStatement_append first (misses_of_opensNowhere quietAfter) goesOn
  rw [List.append_cancel_left trailing, rest] at again
  exact opens.ofText?_eq first again

end Script

namespace Definition

/-- **Body non-interference.** When the content of a dollar-quoted body is exchanged for any text
that does not close the literal early, and neither text has a comment statement that opens between
the header and the end of its body, the new text defines a routine whose body literal is the new one
in the old place, and that agrees with the old routine in everything else. -/
theorem ofText?_exchange {text tag content other : Text} {definition : Definition}
    (parsed : ofText? text = some definition)
    (dollar : definition.script.body = .dollar tag content)
    (first : Text.FirstAfter tag other (other ++ tag))
    (quiet : Remark.OpensNowhere text definition.script.before.length
      (definition.script.prologue ++ definition.script.body.written).length)
    (quietAfter : Remark.OpensNowhere (definition.script.splice (tag ++ other ++ tag))
      definition.script.before.length
      (definition.script.prologue ++ (tag ++ other ++ tag)).length) :
    ∃ exchanged, ofText? (definition.script.splice (tag ++ other ++ tag)) = some exchanged ∧
      exchanged.script.bodySpan.1 = definition.script.bodySpan.1 ∧
      Text.slice? (definition.script.splice (tag ++ other ++ tag)) exchanged.script.bodySpan =
        some (tag ++ other ++ tag) ∧
      exchanged.script.body = .dollar tag other ∧
      exchanged.bodyText = other.trimBlankLines ∧
      exchanged.kind = definition.kind ∧
      exchanged.before = definition.before ∧
      exchanged.after = definition.after ∧
      exchanged.name = definition.name ∧
      exchanged.arguments = definition.arguments ∧
      exchanged.returns = definition.returns ∧
      exchanged.language = definition.language ∧
      exchanged.securityDefiner = definition.securityDefiner ∧
      exchanged.attributes = definition.attributes ∧
      exchanged.comment = definition.comment := by
  simp only [ofText?, Option.map_eq_some_iff] at parsed
  obtain ⟨script, found, rfl⟩ := parsed
  have exchange := Script.ofText?_splice found dollar first quiet quietAfter
  refine ⟨ofScript { script with body := .dollar tag other },
    congrArg (Option.map ofScript) exchange, rfl, ?_, rfl, rfl, rfl, rfl, rfl, rfl, rfl, rfl, rfl,
    rfl, rfl, rfl⟩
  exact Text.slice?_append script.prologue (tag ++ other ++ tag) script.epilogue

/-- The script `CREATE FUNCTION f() AS $$1$$ STABLE;`. -/
def constantOne : Script where
  before := []
  header := ⟨.function, "CREATE FUNCTION ".toList⟩
  name := ['f']
  arguments := []
  leading := " AS ".toList
  body := .dollar ['$', '$'] ['1']
  trailing := " STABLE;".toList
  remark := none
  after := []

/-- A body with quotes, parentheses and keywords takes the place of another one. -/
theorem ofText?_exchange_constantOne :
    ofText? constantOne.text = some (ofScript constantOne) ∧
      ∃ exchanged,
        ofText? (constantOne.splice "$$;'(AS $a$ CREATE FUNCTION g($$".toList) =
          some exchanged ∧
        exchanged.bodyText = ";'(AS $a$ CREATE FUNCTION g(".toList ∧
        exchanged.name = ⟨none, ['f']⟩ := by
  have parsed : ofText? constantOne.text = some (ofScript constantOne) := by decide +kernel
  have first : Text.FirstAfter ['$', '$'] ";'(AS $a$ CREATE FUNCTION g(".toList
      (";'(AS $a$ CREATE FUNCTION g(".toList ++ ['$', '$']) := by
    have split : Text.splitFirst? ['$', '$'] (";'(AS $a$ CREATE FUNCTION g(".toList ++ ['$', '$']) =
        some (";'(AS $a$ CREATE FUNCTION g(".toList, []) := by decide +kernel
    exact (Text.splitFirst?_eq_some_iff.mp split).2
  obtain ⟨exchanged, found, _, _, _, body, _, _, _, name, _⟩ :=
    ofText?_exchange parsed rfl first (by decide +kernel) (by decide +kernel)
  refine ⟨parsed, exchanged, ?_, body.trans (by decide +kernel), name.trans (by decide +kernel)⟩
  rw [← found]
  rfl

end Definition

end RoutineScripts
