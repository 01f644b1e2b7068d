import BlockScope.Command.Tools
/-!
# The command line

One program under two names: called `parser` it is the drawing tool, otherwise the analyser. Files are
read before the tool runs, and its outcome is printed after it has.
-/
namespace BlockScope

/-- What the system says of a file as an error of ours. -/
def fileError : IO.Error → FileError
  | .noFileOrDirectory _ _ _ => .notFound
  | .inappropriateType _ 21 _ => .isDirectory
  | .inappropriateType _ 20 _ => .notDirectory
  | .permissionDenied _ number _ => .system "Permission denied" number.toNat
  | .invalidArgument _ 36 _ => .nameTooLong
  | e => .system (toString e) 0

def readPath (path : String) : IO (String × Except FileError (List UInt8)) := do
  try
    let bytes ← IO.FS.readBinFile path
    return (path, .ok bytes.toList)
  catch e => return (path, .error (fileError e))

/-- Reads files beforehand. -/
def readerOf (paths : List String) : IO Reader := do
  let files ← paths.mapM readPath
  return fun path => (files.lookup path).getD (.error .notFound)

def writePath (path text : String) : IO Outcome := do
  try
    IO.FS.writeFile path text
    return writeOutcome path none
  catch e => return writeOutcome path (some (fileError e))

def finish (outcome : Outcome) : IO UInt32 := do
  IO.print outcome.stdout
  IO.eprint outcome.stderr
  return outcome.status.toUInt32

end BlockScope

open BlockScope in
def main (args : List String) : IO UInt32 := do
  if (← IO.appPath).fileName = some "parser" then
    match drawer args (← readerOf (args.take 1)) with
    | .done outcome => finish outcome
    | .write path text => finish (← writePath path text)
  else
    let files := match Request.ofArgs args with
      | .analyse options => options.files
      | _ => []
    finish (analyser args (← readerOf files))
