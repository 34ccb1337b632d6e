import RoutineScripts.Digest.Sha256
import RoutineScripts.Encoding.Hex
import RoutineScripts.Encoding.Utf8
import RoutineScripts.Routine.Definition

/-!
# Fingerprints

A fingerprint tells whether a definition has changed. It is the digest of `Definition.summary`, a
text that lists what matters about a routine in fields that end in U+0000. Lines of the body that
carry a marker are left out, so placing or changing a marker is not a change.
-/

namespace RoutineScripts

/-- The word for a truth value. -/
def boolText (value : Bool) : Text :=
  if value then "true".toList else "false".toList

namespace FunctionAttributes

/-- How a summary writes an optional number. -/
def summarizeNumber : Option Text → Text
  | some digits => "Some(\"".toList ++ digits ++ "\")".toList
  | none => "None".toList

/-- How a summary writes a volatility. -/
def summarizeVolatility : Volatility → Text
  | .immutable => "Immutable".toList
  | .stable => "Stable".toList
  | .volatile => "Volatile".toList

/-- How a summary writes a parallelism. -/
def summarizeParallelism : Parallelism → Text
  | .safe => "Safe".toList
  | .restricted => "Restricted".toList
  | .serial => "Unsafe".toList

/-- How a summary writes function attributes. -/
def summary (attributes : FunctionAttributes) : Text :=
  "FunctionAttributes \x7b volatility: ".toList ++ summarizeVolatility attributes.volatility
    ++ ", is_leakproof: ".toList ++ boolText attributes.leakproof
    ++ ", is_strict: ".toList ++ boolText attributes.strict
    ++ ", cost: ".toList ++ summarizeNumber attributes.cost
    ++ ", rows: ".toList ++ summarizeNumber attributes.rows
    ++ ", is_window: ".toList ++ boolText attributes.window
    ++ ", parallel: ".toList ++ summarizeParallelism attributes.parallel
    ++ " \x7d".toList

end FunctionAttributes

namespace Definition

/-- The lines of the body without those that carry a marker. -/
def plainLines (definition : Definition) : List Text :=
  definition.bodyText.normalize.lines.filter fun line => (Marker.find? line).isNone

/-- The end of a field in a summary. -/
def fieldEnd : Char := '\x00'

/-- The fields of a summary before the body, in order. -/
def summaryFields (definition : Definition) : List Text :=
  [definition.kind.text, definition.name.qualified, definition.arguments, definition.returns,
    definition.language.text,
    (definition.attributes.function?.map FunctionAttributes.summary).getD [],
    boolText definition.securityDefiner]

/-- Everything about a definition that counts as a change when it changes. -/
def summary (definition : Definition) : Text :=
  definition.summaryFields.flatMap (· ++ [fieldEnd])
    ++ definition.plainLines.flatMap (· ++ ['\n'])
    ++ fieldEnd :: definition.comment.getD []

/-- The digest of the summary in hexadecimal digits. -/
def fingerprint (definition : Definition) : Text :=
  Hex.encode (Sha256.digest (Utf8.encode definition.summary))

end Definition

end RoutineScripts
