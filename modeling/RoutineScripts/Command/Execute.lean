import RoutineScripts.Catalog.Memory
import RoutineScripts.Command.Help

/-!
# Executing commands

`execute` runs the program on a disk: from its arguments to an exit code, what it prints, and the
disk it leaves. Nothing is printed when a command fails but the error report.
-/

namespace RoutineScripts

/-- The result of running the program. -/
structure Execution where
  exitCode : Nat
  output : Text
  errors : Text
  disk : Disk

namespace Command

/-- A line of output: a label and a value. -/
def row (label : String) (value : Text) : Text :=
  label.toList ++ value ++ ['\n']

/-- A line of output that is printed only if a condition holds. -/
def rowIf (condition : Bool) (label : String) (value : Text) : Text :=
  if condition then row label value else []

/-- A line of output for a value that may be missing. -/
def rowFor (label : String) (value : Option Text) : Text :=
  (value.map (row label)).getD []

/-- The description of function attributes. -/
def describeAttributes (attributes : FunctionAttributes) : Text :=
  row "Volatility: " attributes.volatility.text
    ++ row "Parallel:   " attributes.parallel.text
    ++ rowIf attributes.strict "Strict:     yes" []
    ++ rowIf attributes.leakproof "Leakproof:  yes" []
    ++ rowIf attributes.window "Window:     yes" []
    ++ rowFor "Cost:       " attributes.cost
    ++ rowFor "Rows:       " attributes.rows

/-- The description of a definition, and its body after a blank line. -/
def describe (definition : Definition) : Text :=
  row "Kind:       " definition.kind.text
    ++ row "Name:       " definition.name.qualified
    ++ row "Arguments:  " definition.arguments
    ++ rowIf (!definition.returns.isEmpty) "Returns:    " definition.returns
    ++ row "Language:   " definition.language.text
    ++ rowIf definition.securityDefiner "Security:   DEFINER" []
    ++ (definition.attributes.function?.map describeAttributes).getD []
    ++ rowFor "Identifier: " definition.marker
    ++ rowFor "Comment:    " definition.comment
    ++ row "" []
    ++ row "" definition.bodyText

/-- The description of what a run did. -/
def describeReport (report : Report) : Text :=
  row "Files scanned: " (Nat.toDigits 10 report.scanned)
    ++ row "Created:       " (Nat.toDigits 10 report.created)
    ++ row "Updated:       " (Nat.toDigits 10 report.updated)
    ++ row "Unchanged:     " (Nat.toDigits 10 report.unchanged)
    ++ report.rewritten.flatMap (row "Marker written: ")
    ++ report.skipped.flatMap (row "Skipped: ")
    ++ report.removed.flatMap (row "Removed: ")

/-- A success that prints something. -/
def success (disk : Disk) (output : Text) : Execution :=
  ⟨0, output, [], disk⟩

/-- A failure with a message and a cause, if there is one. -/
def failure (disk : Disk) (message : Text) (source : Option Text) : Execution :=
  let cause := (source.map fun text => "\n\nCaused by:\n    ".toList ++ text).getD []
  ⟨1, [], "Error: ".toList ++ message ++ cause ++ ['\n'], disk⟩

/-- A failure with an error. -/
def failed (disk : Disk) (error : SyncError) : Execution :=
  failure disk error.message error.source?

/-- Describes the definition in a file. -/
def executeParse (disk : Disk) (path : Text) : Execution :=
  match SourceFile.load disk path with
  | .error error => failed disk error
  | .ok file =>
      match Definition.ofText? file.content with
      | some definition => success disk (describe definition)
      | none =>
          failure disk ("No CREATE FUNCTION or CREATE PROCEDURE statement in ".toList ++ path) none

/-- Places a marker in a file, or prints the text with the marker. -/
def executeMark (disk : Disk) (path id : Text) (inPlace : Bool) : Execution :=
  match SourceFile.load disk path with
  | .error error => failed disk error
  | .ok file =>
      let updated := Marker.ensure file.content id
      if !inPlace then success disk updated
      else if updated = file.content then success disk []
      else
        match file.save updated disk with
        | .ok next => success next []
        | .error (error, left) => failed left error

/-- Synchronises a library with an empty catalog. -/
def executeSync (supply : Nat → Guid) (disk : Disk) (options : SyncOptions) : Execution :=
  match synchronize options disk (MemoryCatalog.empty supply) with
  | .ok run => success run.disk (describeReport run.report)
  | .error halt => failed halt.run.disk halt.error

/-- Carries out a command. -/
def execute (supply : Nat → Guid) (disk : Disk) : Command → Execution
  | parse file => executeParse disk file
  | mark file id inPlace => executeMark disk file id inPlace
  | sync options => executeSync supply disk options

end Command

/-- Runs the program on its arguments. New identifiers are taken from a supply. -/
def execute (supply : Nat → Guid) (disk : Disk) (arguments : List Text) : Execution :=
  match Invocation.ofArguments arguments with
  | .command command => command.execute supply disk
  | .help name => ⟨0, Help.text name, [], disk⟩
  | .version => ⟨0, Help.version, [], disk⟩
  | .misuse => ⟨2, [], Help.misuse, disk⟩

end RoutineScripts
