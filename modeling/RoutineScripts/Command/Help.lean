import RoutineScripts.Command.Arguments

/-!
# Help texts

What the program prints about itself.
-/

namespace RoutineScripts

namespace Help

/-- Joins lines, each with a line break after it. -/
def ofLines (lines : List String) : Text :=
  lines.flatMap fun line => line.toList ++ ['\n']

/-- The name and version of the program. -/
def version : Text :=
  ofLines ["pg-funcsync 0.1.0"]

/-- Help on the program. -/
def program : Text :=
  ofLines [
    "PostgreSQL function and procedure script sync",
    "",
    "Usage: pg-funcsync [OPTIONS] <COMMAND>",
    "",
    "Commands:",
    "  parse  Parse a CREATE FUNCTION/PROCEDURE script and print its metadata",
    "  mark   Insert or update the @GUID marker of a script",
    "  sync   Synchronize a database library folder with an in-memory catalog",
    "  help   Print this message or the help of the given subcommand(s)",
    "",
    "Options:",
    "  -v, --verbose  Enable debug logging",
    "  -h, --help     Print help",
    "  -V, --version  Print version"]

/-- Help on a command. -/
def ofCommand : CommandName → Text
  | .parse => ofLines [
      "Parse a CREATE FUNCTION/PROCEDURE script and print its metadata",
      "",
      "Usage: pg-funcsync parse [OPTIONS] <FILE>",
      "",
      "Arguments:",
      "  <FILE>  Path to the .sql file",
      "",
      "Options:",
      "  -v, --verbose  Enable debug logging",
      "  -h, --help     Print help"]
  | .mark => ofLines [
      "Insert or update the @GUID marker of a script",
      "",
      "Usage: pg-funcsync mark [OPTIONS] --id <ID> <FILE>",
      "",
      "Arguments:",
      "  <FILE>  Path to the .sql file",
      "",
      "Options:",
      "      --id <ID>   Identifier to embed, with or without braces",
      "      --in-place  Rewrite the file instead of printing the result",
      "  -v, --verbose   Enable debug logging",
      "  -h, --help      Print help"]
  | .sync => ofLines [
      "Synchronize a database library folder with an in-memory catalog",
      "",
      "Usage: pg-funcsync sync [OPTIONS] <ROOT>",
      "",
      "Arguments:",
      "  <ROOT>  Library root containing the routine folders",
      "",
      "Options:",
      "      --folder <FOLDERS>   Sub-folder to scan "
        ++ "(repeatable, defaults to functions and procedures)",
      "      --pattern <PATTERN>  File name pattern [default: *.sql]",
      "      --dry-run            Report marker rewrites without writing files",
      "  -v, --verbose            Enable debug logging",
      "  -h, --help               Print help"]

/-- Help on a command, or on the program. -/
def text : Option CommandName → Text
  | none => program
  | some name => ofCommand name

/-- What is said when the arguments cannot be read. -/
def misuse : Text :=
  ofLines ["error: invalid arguments", "", "For more information, try '--help'."]

end Help

end RoutineScripts
