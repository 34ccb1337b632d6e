import RoutineScripts.Lexical.Scan

/-!
# Routine names

A routine is named by an identifier, optionally qualified by a schema. Quotes are dropped from
each part. The dot that qualifies a name is the first one at top level, so a dot inside a quoted
part separates nothing.
-/

namespace RoutineScripts

/-- A name with its schema, both without quotes. -/
structure QualifiedName where
  schema : Option Text
  name : Text
  deriving DecidableEq, Repr

/-- The text of an identifier without white space around it and without one double quote at each
end, where there is one. -/
def unquoteIdentifier (text : Text) : Text :=
  let opened := match text.trim with
    | '"' :: rest => rest
    | bare => bare
  if opened.getLast? = some '"' then opened.dropLast else opened

namespace QualifiedName

/-- Reads a name such as `public."Total"`. -/
def ofText (segment : Text) : QualifiedName :=
  match Text.splitTopLevel? '.' segment.trim with
  | some (schema, name) => ⟨some (unquoteIdentifier schema), unquoteIdentifier name⟩
  | none => ⟨none, unquoteIdentifier segment.trim⟩

/-- The name after its schema and a dot, or alone when there is no schema. -/
def qualified : QualifiedName → Text
  | ⟨some schema, name⟩ => schema ++ '.' :: name
  | ⟨none, name⟩ => name

end QualifiedName

end RoutineScripts
