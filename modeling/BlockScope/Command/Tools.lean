import BlockScope.Analysis
import BlockScope.Analysis.Dump
import BlockScope.Command.Folder
import BlockScope.Command.Options
import BlockScope.Layout.Text
import BlockScope.Program.Grammar.Definition
import BlockScope.Program.Graph
/-!
# The two tools

The analyser reads files one after the other, each a program of its own, and prints what was asked for;
the first file with an error ends it. The drawing tool turns one file into a graph, printed or written
to another file. Both are functions of their arguments and of a way to read files.
-/
namespace BlockScope

/-- What a tool printed, and its exit status. -/
structure Outcome where
  status : Nat := 0
  stdout : String := ""
  stderr : String := ""
  deriving DecidableEq, Repr

/-- A way to read files. -/
abbrev Reader := String → Except FileError (List UInt8)

/-- An error in a file at a place. -/
def placed (file : String) (start : Position) (message : String) : String := s!"{file}:{start.text}: {message}"

namespace Outcome

def print (o : Outcome) (text : String) : Outcome := { o with stdout := o.stdout ++ text }

/-- Prints entries up to a level of verbosity. -/
def tell (o : Outcome) (verbosity : Nat) (entries : List Entry) : Outcome :=
  let shown := entries.filter (·.level.rank ≤ verbosity)
  { o with stderr := o.stderr ++ String.join (shown.map (·.text)) }

/-- Ends with a message. -/
def fail (o : Outcome) (message : String) : Outcome := { o with status := 1, stderr := o.stderr ++ message ++ "\n" }

end Outcome

/-! ## The analyser -/

/-- The outcome of an analysis on the printed output so far. -/
def reportAnalysis (options : Options) (file : String) (p : Program) (o : Outcome) : Outcome :=
  let (result, journal) := p.analyzeTelling
  let o := o.tell options.verbosity journal
  match result with
  | .error e =>
    o.fail (match e.span with
      | some span => placed file span.start e.fault.message
      | none => s!"{file}: {e.fault.message}")
  | .ok a =>
    let o := if options.dumpScopes then o.print (s!"== {file} scopes ==\n" ++ a.dump) else o
    if options.dumpLayout then o.print (s!"== {file} layout ==\n" ++ (p.layout a).text) else o

/-- Analyses one file. -/
def analyseFile (options : Options) (read : Reader) (file : String) (o : Outcome) : Outcome :=
  match textFile read file with
  | .error e => o.fail s!"error reading file '{file}': {e.message}"
  | .ok bytes =>
    let o := o.tell options.verbosity [.parsing file]
    match Program.ofBytes bytes with
    | .error e => o.fail (placed file e.span.start e.fault.message)
    | .ok p =>
      let o := o.tell options.verbosity [.parsed file p.classes.length]
      let o := if options.dumpGraph then o.print p.dot else o
      reportAnalysis options file p o

/-- Analyses files up to the first with an error. -/
def analyseFiles (options : Options) (read : Reader) : List String → Outcome → Outcome
  | [], o => o
  | file :: rest, o =>
    let o := analyseFile options read file o
    if o.status = 0 then analyseFiles options read rest o else o

def versionText : String := "valutron 0.1.0\n"

def helpText : String :=
  "Usage: valutron [OPTIONS] <FILES>...\n\n" ++
  "Arguments:\n" ++
  "  <FILES>...  The class definition files to analyse\n\n" ++
  "Options:\n" ++
  "      --dump-ast     Dump the AST in dot format\n" ++
  "      --dump-scopes  Dump scopes with their variables and captures\n" ++
  "      --dump-layout  Dump frames, entry points and class templates\n" ++
  "  -v, --verbose...   Raise log verbosity (-v info, -vv debug, -vvv trace)\n" ++
  "  -h, --help         Print help\n" ++
  "  -V, --version      Print version\n"

/-- The analyser on its arguments. -/
def analyser (args : List String) (read : Reader) : Outcome :=
  match Request.ofArgs args with
  | .analyse options => analyseFiles options read options.files {}
  | .version => { stdout := versionText }
  | .help => { stdout := helpText }
  | .invalid => { status := 2, stderr := helpText }

/-! ## The drawing tool -/

/-- What the drawing tool does last. -/
inductive DrawingResult where
  | done (outcome : Outcome)
  /-- Writes the graph to a file. -/
  | write (path : String) (text : String)

/-- The drawing tool on its arguments, up to writing a file. -/
def drawer (args : List String) (read : Reader) : DrawingResult :=
  match args with
  | [input] => draw input none
  | [input, output] => draw input (some output)
  | _ => .done { status := 2, stderr := "usage: parser <input> [output.dot]\n" }
where
  draw (input : String) (output : Option String) : DrawingResult :=
    match textFile read input with
    | .error e => .done (Outcome.fail {} s!"failed to read {input}: {e.message}")
    | .ok bytes =>
      match Program.ofBytes bytes with
      | .error e => .done (Outcome.fail {} (placed input e.span.start e.fault.message))
      | .ok p =>
        match output with
        | none => .done (Outcome.print {} p.dot)
        | some path => .write path p.dot

/-- The outcome of trying to write the graph. -/
def writeOutcome (path : String) : Option FileError → Outcome
  | none => {}
  | some e => Outcome.fail {} s!"failed to write {path}: {e.message}"

/-- The drawing tool in a folder, and the folder after it. -/
def drawIn (folder : Folder) (args : List String) : Outcome × Folder :=
  match drawer args folder.read with
  | .done outcome => (outcome, folder)
  | .write path text =>
    match folder.write path (Text.utf8 text) with
    | .ok written => (writeOutcome path none, written)
    | .error e => (writeOutcome path (some e), folder)

end BlockScope
