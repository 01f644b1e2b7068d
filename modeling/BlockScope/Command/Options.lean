/-!
# The command line of the analyser

Flags may stand anywhere until `--`; everything else is a file. Each dump is asked for at most once,
verbosity adds up. The arguments are read from left to right, and the first that is wrong, or asks for
the version or for help, decides.
-/
namespace BlockScope

structure Options where
  files : List String := []
  dumpGraph : Bool := false
  dumpScopes : Bool := false
  dumpLayout : Bool := false
  verbosity : Nat := 0
  deriving DecidableEq, Repr

/-- What the arguments ask for. -/
inductive Request where
  | analyse (options : Options)
  | version
  | help
  /-- The arguments make no sense. -/
  | invalid
  deriving DecidableEq, Repr

namespace Options

/-- Adds a file; its name must not be empty. -/
def addFile (o : Options) (path : String) : Except Request Options :=
  if path = "" then .error .invalid else .ok { o with files := o.files ++ [path] }

/-- Reads a flag of one letter. -/
def addLetter (o : Options) (letter : Char) : Except Request Options :=
  if letter = 'v' then .ok { o with verbosity := o.verbosity + 1 }
  else if letter = 'V' then .error .version
  else if letter = 'h' then .error .help
  else .error .invalid

/-- Reads a flag given by its name. -/
def addFlag (o : Options) (name : String) : Except Request Options :=
  match name with
  | "verbose" => .ok { o with verbosity := o.verbosity + 1 }
  | "version" => .error .version
  | "help" => .error .help
  | "dump-ast" => if o.dumpGraph then .error .invalid else .ok { o with dumpGraph := true }
  | "dump-scopes" => if o.dumpScopes then .error .invalid else .ok { o with dumpScopes := true }
  | "dump-layout" => if o.dumpLayout then .error .invalid else .ok { o with dumpLayout := true }
  | _ => .error .invalid

/-- Reads the arguments that are left. -/
def addAll (o : Options) : List String → Except Request Options
  | [] => .ok o
  | arg :: rest =>
    match arg.toList with
    | ['-', '-'] => rest.foldlM addFile o
    | '-' :: '-' :: name => do addAll (← o.addFlag (String.ofList name)) rest
    | '-' :: letter :: letters => do addAll (← (letter :: letters).foldlM addLetter o) rest
    | _ => do addAll (← o.addFile arg) rest

end Options

/-- What the arguments ask for; an analysis needs a file. -/
def Request.ofArgs (args : List String) : Request :=
  match Options.addAll {} args with
  | .error request => request
  | .ok options => if options.files.isEmpty then .invalid else .analyse options

end BlockScope
