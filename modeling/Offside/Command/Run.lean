import Offside.Command.Arguments
import Offside.Command.Colour
import Offside.Command.Files
import Offside.Compile
import Offside.Tree.Dump

/-!
# `Command.Run` — the command as a whole

Reads the arguments and the file, compiles it, and writes the assembly to a file, prints it, or prints the
tree. A failure is told on the error stream, with the line of source it points at and a mark below the
column. The exit code is 0 for success, 1 for a failure and 2 for a command line that was not understood.
-/

namespace Offside.Command

/-- What a command leaves behind, files apart. -/
structure Outcome where
  exit : Nat
  out : String := ""
  err : String := ""
deriving DecidableEq

/-- The name and the version of the command. -/
def versionText : String := "pifive 0.1.0"

/-- How the command is used. -/
def usageText : String :=
  "Usage: pifive [OPTIONS] <INPUT>\n\n"
    ++ "  -o, --output <FILE>  Output assembly file\n"
    ++ "  -p, --print          Print the assembly instead of writing it\n"
    ++ "  -c, --comments       Annotate the assembly with comments\n"
    ++ "      --entry <NAME>   Function whose bare calls are omitted\n"
    ++ "      --dump-ast       Print the parsed tree as JSON and stop\n"
    ++ "      --no-color       Disable colored output\n"
    ++ "  -v, --verbose        Verbose output\n"
    ++ "  -h, --help           Print help\n"
    ++ "  -V, --version        Print version\n"

/-- A line without the carriage return at its end. -/
def dropCarriageReturn (line : String) : String :=
  if line.endsWith "\r" then (line.dropEnd 1).toString else line

/-- The lines of a text: line ends are left out, and what follows the last one is a line unless it is
    empty. -/
def sourceLines (source : String) : List String :=
  let pieces := source.splitOn "\n"
  pieces.dropLast.map dropCarriageReturn ++ (pieces.getLast?.filter (· ≠ "")).toList

/-- The text of a failure, followed by the line it points at and a mark below the column. -/
def explain (source : String) (d : Diagnostic) : String :=
  match d.position? with
  | none => d.message
  | some loc =>
    match (sourceLines source)[loc.line - 1]? with
    | none => d.message
    | some line =>
      d.message ++ "\n  | " ++ line ++ "\n  | " ++ String.ofList (List.replicate (loc.column - 1) ' ') ++ "^"

/-- The journal as it is told on the error stream. -/
def tellJournal (verbose : Bool) (events : List Event) : String :=
  if verbose then
    String.join ((events.filter (Level.debug.shows ·)).map fun e =>
      "[" ++ e.level.name ++ "] " ++ e.text ++ "\n")
  else ""

/-- A failure of the command. -/
def failure (colour : Bool) (before text : String) : Outcome :=
  { exit := 1, err := before ++ Style.paint ⟨.red, true⟩ colour "error:" ++ " " ++ text ++ "\n" }

/-- Compiles the source as the invocation asks. A listing that is not printed is written. -/
def runSource {m : Type → Type} [Monad m] (files : FileAccess m) (colour : Bool) (inv : Invocation)
    (source : String) : m Outcome := do
  match parseLogged inv.input source with
  | (events, .error d) => return failure colour (tellJournal inv.verbose events) (explain source d)
  | (events, .ok tree) =>
    if inv.dumpTree then
      return { exit := 0, out := tree.json.pretty ++ "\n", err := tellJournal inv.verbose events }
    match generateLogged ⟨inv.comments, inv.entry⟩ tree with
    | (more, .error e) =>
      return failure colour (tellJournal inv.verbose (events ++ more)) (explain source e.diagnostic)
    | (more, .ok listing) =>
      let told := tellJournal inv.verbose (events ++ more)
      if inv.print then
        let shown := listing.lines.map fun l => paintLine colour l ++ "\n"
        return { exit := 0, out := String.join shown, err := told }
      match ← files.write inv.output listing.text with
      | .error e => return failure colour told ("failed to write " ++ inv.output ++ ": " ++ e.message)
      | .ok _ =>
        let wrote := Style.paint ⟨.green, true⟩ colour "Wrote"
        let count := toString listing.lines.length
        return { exit := 0, out := wrote ++ " " ++ inv.output ++ " (" ++ count ++ " lines)\n", err := told }

/-- Runs the command. `colour` says whether colours are welcome where the output goes. -/
def run {m : Type → Type} [Monad m] (files : FileAccess m) (colour : Bool) (args : List String) :
    m Outcome := do
  match readArguments args with
  | .error .version => return { exit := 0, out := versionText ++ "\n" }
  | .error .help => return { exit := 0, out := usageText }
  | .error (.fault f) => return { exit := 2, err := "error: " ++ f.message ++ "\n\n" ++ usageText }
  | .ok inv =>
    let colour := colour && !inv.noColour
    match ← files.read inv.input with
    | .error e => return failure colour "" ("failed to read " ++ inv.input ++ ": " ++ e.message)
    | .ok source => runSource files colour inv source

/-- Runs the command in a directory kept in memory; gives the files that are new or changed, too. -/
def runIn (directory : Directory) (colour : Bool) (args : List String) :
    Outcome × List (Path × ByteArray) :=
  let (outcome, after) := (run Directory.access colour args).run directory
  (outcome, directory.changes after)

end Offside.Command
