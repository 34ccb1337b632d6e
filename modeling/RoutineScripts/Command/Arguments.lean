import RoutineScripts.Sync

/-!
# Command line arguments

The program has three commands: `parse` describes the definition in a file, `mark` places a marker
in one, and `sync` synchronises a library with a fresh catalog. `Invocation.ofArguments` reads the
arguments.

Options may stand before or after the file of a command, with their value after `=` or as the next
argument. A value that is the next argument does not start with a dash, a single dash apart. Options
and flags may be given once, `--folder` any number of times. After `--` nothing is an option. The
flag `-v` may stand before and after the name of the command, once each.
-/

namespace RoutineScripts

/-- What the program is asked to do. -/
inductive Command
  | parse (file : Text)
  | mark (file id : Text) (inPlace : Bool)
  | sync (options : SyncOptions)
  deriving DecidableEq, Repr

/-- The names of the commands. -/
inductive CommandName
  | parse
  | mark
  | sync
  deriving DecidableEq, Repr

/-- How the program was called. -/
inductive Invocation
  | command (command : Command)
  | help (command : Option CommandName)
  | version
  | misuse
  deriving DecidableEq, Repr

/-- The arguments of a command read so far. -/
structure ArgumentState where
  verbose : Bool
  file : Option Text
  id : Option Text
  pattern : Option Text
  folders : List Text
  inPlace : Bool
  dryRun : Bool
  deriving DecidableEq, Repr

namespace ArgumentState

/-- Nothing read. -/
def empty : ArgumentState := ⟨false, none, none, none, [], false, false⟩

/-- Adds a file. There is only one, and its name is not empty. -/
def addFile? (state : ArgumentState) (file : Text) : Option ArgumentState :=
  if state.file.isSome || file.isEmpty then none else some { state with file }

/-- Adds the flag `--verbose`. -/
def addVerbose? (state : ArgumentState) : Option ArgumentState :=
  if state.verbose then none else some { state with verbose := true }

/-- Adds a flag that belongs to a command. -/
def addFlag? (name : CommandName) (flag : Text) (state : ArgumentState) : Option ArgumentState :=
  if name = .mark ∧ flag = "in-place".toList ∧ !state.inPlace then
    some { state with inPlace := true }
  else if name = .sync ∧ flag = "dry-run".toList ∧ !state.dryRun then
    some { state with dryRun := true }
  else
    none

/-- Whether a command has an option that takes a value. -/
def takesValue (name : CommandName) (option : Text) : Bool :=
  match name with
  | .parse => false
  | .mark => option = "id".toList
  | .sync => option = "folder".toList || option = "pattern".toList

/-- Adds an option that takes a value. -/
def addOption? (option value : Text) (state : ArgumentState) : Option ArgumentState :=
  if option = "folder".toList then some { state with folders := state.folders ++ [value] }
  else if option = "id".toList then
    if state.id.isSome then none else some { state with id := value }
  else if option = "pattern".toList then
    if state.pattern.isSome then none else some { state with pattern := value }
  else
    none

/-- The command that complete arguments ask for. -/
def command? (name : CommandName) (state : ArgumentState) : Option Command :=
  match name, state.file with
  | _, none => none
  | .parse, some file => some (.parse file)
  | .mark, some file => state.id.map fun id => .mark file id state.inPlace
  | .sync, some root =>
      some (.sync
        { root
          folders := if state.folders.isEmpty then SyncOptions.standard.folders else state.folders
          pattern := state.pattern.getD SyncOptions.standard.pattern
          dryRun := state.dryRun })

end ArgumentState

namespace Invocation

/-- Splits an argument such as `--name=value`. -/
def splitValue (argument : Text) : Text × Option Text :=
  match argument.dropWhile (· != '=') with
  | [] => (argument, none)
  | _ :: value => (argument.takeWhile (· != '='), some value)

/-- Whether an argument may be the value of the option before it. -/
def isValue (argument : Text) : Bool :=
  argument.head? != some '-' || argument == ['-']

/-- How the program was called when the arguments of a command are all read. -/
def finish (name : CommandName) (state : ArgumentState) : Invocation :=
  match state.command? name with
  | some asked => .command asked
  | none => .misuse

/-- Reads the short flags of one argument. The result is the state after them, or a call that one
of them decides. -/
def readFlags (name : CommandName) : ArgumentState → Text → Except Invocation ArgumentState
  | state, [] => .ok state
  | state, c :: rest =>
      if c = 'v' then
        match state.addVerbose? with
        | some next => readFlags name next rest
        | none => .error .misuse
      else if c = 'h' then .error (.help (some name))
      else .error .misuse

/-- Reads arguments that are all files. -/
def readFiles (name : CommandName) : ArgumentState → List Text → Invocation
  | state, [] => finish name state
  | state, file :: rest =>
      match state.addFile? file with
      | some next => readFiles name next rest
      | none => .misuse

/-- Reads the arguments of a command. -/
def readCommand (name : CommandName) : ArgumentState → List Text → Invocation
  | state, [] => finish name state
  | state, argument :: rest =>
      match argument with
      | ['-', '-'] => readFiles name state rest
      | '-' :: '-' :: long =>
          match splitValue long with
          | (option, some value) =>
              if ArgumentState.takesValue name option then
                match state.addOption? option value with
                | some next => readCommand name next rest
                | none => .misuse
              else
                .misuse
          | (option, none) =>
              if ArgumentState.takesValue name option then
                match rest with
                | [] => .misuse
                | value :: others =>
                    if isValue value then
                      match state.addOption? option value with
                      | some next => readCommand name next others
                      | none => .misuse
                    else
                      .misuse
              else if option = "help".toList then .help (some name)
              else
                let added :=
                  if option = "verbose".toList then state.addVerbose?
                  else state.addFlag? name option
                match added with
                | some next => readCommand name next rest
                | none => .misuse
      | '-' :: c :: short =>
          match readFlags name state (c :: short) with
          | .ok next => readCommand name next rest
          | .error decided => decided
      | _ =>
          match state.addFile? argument with
          | some next => readCommand name next rest
          | none => .misuse

/-- The command of a name. -/
def commandName? (word : Text) : Option CommandName :=
  if word = "parse".toList then some .parse
  else if word = "mark".toList then some .mark
  else if word = "sync".toList then some .sync
  else none

/-- Reads the arguments of the command `help`. -/
def readHelp : List Text → Invocation
  | [] => .help none
  | [word] =>
      match commandName? word with
      | some name => .help (some name)
      | none => if word = "help".toList then .help none else .misuse
  | _ => .misuse

/-- Reads short flags before the name of a command. The result says whether `-v` was among them,
or which call the flags decide. -/
def readLeadingFlags : Bool → Text → Except Invocation Bool
  | verbose, [] => .ok verbose
  | verbose, c :: rest =>
      if c = 'v' && !verbose then readLeadingFlags true rest
      else if c = 'h' then .error (.help none)
      else if c = 'V' then .error .version
      else .error .misuse

/-- Reads arguments up to the name of a command, and then those of the command. `verbose` says that
`-v` was given. -/
def readLeading : Bool → List Text → Invocation
  | _, [] => .misuse
  | verbose, argument :: rest =>
      match argument with
      | '-' :: '-' :: long =>
          if long = "help".toList then .help none
          else if long = "version".toList then .version
          else if long = "verbose".toList && !verbose then readLeading true rest
          else .misuse
      | '-' :: c :: short =>
          match readLeadingFlags verbose (c :: short) with
          | .ok next => readLeading next rest
          | .error decided => decided
      | word =>
          match commandName? word with
          | some name => readCommand name .empty rest
          | none => if word = "help".toList then readHelp rest else .misuse

/-- Reads the arguments of the program. -/
def ofArguments (arguments : List Text) : Invocation :=
  readLeading false arguments

end Invocation

end RoutineScripts
