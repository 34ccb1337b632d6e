import RoutineScripts.Proofs.Bytes.Marker

/-!
# Reading any text without a fault

The functions that read a text by byte offsets make no access that fails, for any text and from any
offset: also from one past the end or inside a character (`faultFree`). Every slice that they take
goes from the end of one front of the text to the end of a longer one (`Checked.slice_eq_ok_iff`),
every byte that they look at is one of the text, and no difference falls below zero. They give what
the functions on characters give.

The offset that a search starts behind has to be smaller than the largest machine number, since it
is increased before it is compared with the length of the text.
-/

namespace RoutineScripts

/-- No reading of a text by bytes ends with a fault, and each gives what the reading of its
characters gives. The text is read from an offset and has a marker put into it; the argument list
and the remark are those after the byte at the offset. -/
structure FaultFree (text id replacement : Text) (target : UInt8) (offset : Nat) : Prop where
  definition : Checked.definition? text = .ok ((Definition.ofText? text).map Definition.record)
  fingerprint : Checked.fingerprint? text =
    .ok ((Definition.ofText? text).map Definition.fingerprint)
  replaced : Checked.replaceBody? text replacement =
    .ok ((Definition.ofText? text).map fun definition => definition.script.splice replacement)
  marker : Checked.ensure text id = .ok (Marker.ensure text id)
  body : Checked.locate? text offset = .ok ((Literal.locateAt? text offset).map
    fun (literal, first, _) => literal.placed first)
  remark : Checked.findRemark? text offset = .ok ((Remark.findAfter? text offset).map
    fun (remark, first, _) => remark.placed first)
  parentheses : Checked.parenSpan? text offset = .ok (text.parenSpan? offset)
  byte : Checked.findTopLevel? text target offset =
    .ok ((text.topLevelPositions offset).find? fun place => text.byte? place == some target)
  character : ∀ c : Char, c.toNat < 0x80 →
    Checked.findTopLevel? text (byteOf c) offset = .ok (text.findTopLevel? c offset)
  masked : Checked.maskComments text = .ok text.maskComments
  trimmed : Checked.trimBlankLines text = .ok text.trimBlankLines
  name : Checked.qualifiedName text = .ok (QualifiedName.ofText text)

/-- **No input makes a reading fail.** -/
theorem faultFree (text id replacement : Text) (target : UInt8) (offset : Nat)
    (below : offset < Checked.largest) : FaultFree text id replacement target offset where
  definition := Checked.definition?_eq text
  fingerprint := Checked.fingerprint?_eq text
  replaced := Checked.replaceBody?_eq text replacement
  marker := Checked.ensure_eq text id
  body := Checked.locate?_eq text offset
  remark := Checked.findRemark?_eq text below
  parentheses := Checked.parenSpan?_eq text below
  byte := Checked.findTopLevel?_eq_find? text target offset
  character _ ascii := Checked.findTopLevel?_eq ascii text offset
  masked := Checked.maskComments_eq text
  trimmed := Checked.trimBlankLines_eq text
  name := Checked.qualifiedName_eq text

/-- The search for a body may start inside a character, which here has three bytes. -/
theorem faultFree_euro :
    1 < Checked.largest ∧
      Checked.locate? "€ as $$€$$".toList 1 = .ok (some ⟨7, 14, .dollar "$$".toList, "€".toList⟩) :=
  have below : 1 < Checked.largest := by decide
  ⟨below, (faultFree "€ as $$€$$".toList [] [] 0 1 below).body.trans
    (congrArg Except.ok (by decide))⟩

end RoutineScripts
