import RoutineScripts.Marker.Basic
import RoutineScripts.Routine.Name
import RoutineScripts.Routine.Options
import RoutineScripts.Routine.Script

/-!
# Definitions

What a script says about its routine. `Definition.ofText?` is the entry point: it cuts a text into
a script and reads the parts.
-/

namespace RoutineScripts

/-- A routine definition together with the script it was read from. -/
structure Definition where
  script : Script
  before : Text
  after : Text
  name : QualifiedName
  arguments : Text
  returns : Text
  language : Language
  securityDefiner : Bool
  attributes : Attributes
  marker : Option Text
  deriving DecidableEq, Repr

namespace Definition

/-- Reads the parts of a script. Line breaks in the argument list are written as `\n`, and blank
lines are trimmed from the texts around the definition and from the argument list. -/
def ofScript (script : Script) : Definition :=
  let options := Options.ofText script.optionText
  { script
    before := script.before.trimBlankLines
    after := script.after.trimBlankLines
    name := QualifiedName.ofText script.name
    arguments := script.arguments.normalize.trimBlankLines
    returns := options.returns
    language := options.language
    securityDefiner := options.securityDefiner
    attributes := options.attributes script.header.kind
    marker := Marker.find? script.text }

/-- Reads the first routine definition in a text. -/
def ofText? (text : Text) : Option Definition :=
  (Script.ofText? text).map ofScript

/-- The kind of routine defined. -/
def kind (definition : Definition) : Kind :=
  definition.attributes.kind

/-- The body of the routine. -/
def bodyText (definition : Definition) : Text :=
  definition.script.body.text

/-- The comment made on the routine after its definition. -/
def comment (definition : Definition) : Option Text :=
  definition.script.remark.map Remark.text

end Definition

end RoutineScripts
