import RoutineScripts.Text.Basic

/-!
# Kinds, languages and attributes of routines

The closed vocabularies of a routine definition, with the words they are written in.
-/

namespace RoutineScripts

/-- What a script defines. -/
inductive Kind
  | function
  | procedure
  deriving DecidableEq, Repr

/-- The keyword of a kind. -/
def Kind.text : Kind → Text
  | function => "FUNCTION".toList
  | procedure => "PROCEDURE".toList

/-- The language a routine is written in. A language outside the four built-in ones keeps its
name as declared, and a definition that declares none has no name. -/
inductive Language
  | sql
  | c
  | internal
  | plpgsql
  | userDefined (name : Option Text)
  deriving DecidableEq, Repr

namespace Language

/-- The language that a declared name stands for, without regard to letter case. An empty name
counts as none. -/
def resolve : Option Text → Language
  | none => userDefined none
  | some name =>
      if name.isEmpty then userDefined none
      else if name.asciiLower = "sql".toList then sql
      else if name.asciiLower = "c".toList then c
      else if name.asciiLower = "internal".toList then internal
      else if name.asciiLower = "plpgsql".toList then plpgsql
      else userDefined (some name)

/-- The canonical tag of a language. -/
def tag : Language → Text
  | sql => "sql".toList
  | c => "c".toList
  | internal => "internal".toList
  | plpgsql => "plpgsql".toList
  | userDefined _ => "user-defined".toList

/-- The declared name of a language that is not built in. -/
def name? : Language → Option Text
  | userDefined name => name
  | _ => none

/-- The tag of a language, with its declared name in parentheses if there is one. -/
def text (language : Language) : Text :=
  match language.name? with
  | some name => language.tag ++ " (".toList ++ name ++ ")".toList
  | none => language.tag

end Language

/-- What a function promises about repeated calls. -/
inductive Volatility
  | immutable
  | stable
  | volatile
  deriving DecidableEq, Repr

/-- The keyword of a volatility. -/
def Volatility.text : Volatility → Text
  | immutable => "IMMUTABLE".toList
  | stable => "STABLE".toList
  | volatile => "VOLATILE".toList

/-- Whether a function may run in a parallel query: anywhere, only in its leader, or not at
all. -/
inductive Parallelism
  | safe
  | restricted
  | serial
  deriving DecidableEq, Repr

/-- The keyword of a parallelism. -/
def Parallelism.text : Parallelism → Text
  | safe => "SAFE".toList
  | restricted => "RESTRICTED".toList
  | serial => "UNSAFE".toList

/-- The attributes that only functions have. Cost and row estimates are kept as written. -/
structure FunctionAttributes where
  volatility : Volatility
  leakproof : Bool
  strict : Bool
  cost : Option Text
  rows : Option Text
  window : Bool
  parallel : Parallelism
  deriving DecidableEq, Repr

/-- The attributes of a routine by its kind. A procedure has none, even when its script spells
some out. -/
inductive Attributes
  | function (attributes : FunctionAttributes)
  | procedure
  deriving DecidableEq, Repr

namespace Attributes

/-- The kind of routine that has these attributes. -/
def kind : Attributes → Kind
  | function _ => .function
  | procedure => .procedure

/-- The function attributes, if there are any. -/
def function? : Attributes → Option FunctionAttributes
  | function attributes => some attributes
  | procedure => none

end Attributes

end RoutineScripts
