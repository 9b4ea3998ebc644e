import RunGrammar.CommandLine.Job

/-!
# The command

This module ties a job to real files and to the terminal. Results are printed to
the standard output; reports of the compression and the reason of a failure go to
the standard error.
-/

namespace RunGrammar.CommandLine

/-- A fault of the system. Where it tells apart what is and what is not a directory, it does so by
the number of the error. -/
def systemFault : IO.Error → FileFault
  | .noFileOrDirectory .. => .notFound
  | .inappropriateType _ 20 _ => .notDirectory
  | .inappropriateType _ 21 _ => .isDirectory
  | e => .other (toString e)

/-- Files of the system. -/
def systemFiles : Files IO where
  read name := do
    match ← (IO.FS.readBinFile name).toBaseIO with
    | .ok bytes => return .ok bytes.toList
    | .error e => return .error (systemFault e)
  write name bytes := do
    match ← (IO.FS.writeBinFile name ⟨bytes.toArray⟩).toBaseIO with
    | .ok () => return .ok ()
    | .error e => return .error (systemFault e)

def systemHost : Host IO where
  files := systemFiles
  print := IO.println
  printError := IO.eprintln
  report severity text :=
    let label := severity.label
    IO.eprintln s!"[{label}] {text}"
  clock := IO.monoMsNow

/-- The options, one a line. -/
def usage : String :=
  String.intercalate "\n" [
    "Grammar compression by recompression",
    "",
    "Usage: recompression [OPTIONS] <INPUT>",
    "",
    "Options:",
    "  -a, --algorithm <ALGORITHM>  Variant to run: hash, fast or parallel [default: fast]",
    "  -c, --cores <CORES>          Worker threads for the parallel variant",
    "  -p, --prefix <BYTES>         Only compress the first BYTES bytes (0 = whole file)",
    "      --coder <CODER>          Store the grammar with this coder: plain, fixed or sorted",
    "      --remove-zeroes          Drop zero bytes from the input",
    "  -o, --output <OUTPUT>        Output path (default: input path plus the coder extension)",
    "      --verify                 Check that the grammar and the stored file reproduce the input",
    "  -v, --verbose...             Increase logging verbosity",
    "  -h, --help                   Print help",
    "  -V, --version                Print version"]

/-- Prints what belongs to an ending. -/
def announce : Ending → IO Unit
  | .success | .failure => return
  | .misuse _ => IO.eprintln usage
  | .help => IO.println usage
  | .version => IO.println "recompression 0.1.0"

end RunGrammar.CommandLine

def main (words : List String) : IO UInt32 := do
  let ending ← RunGrammar.CommandLine.command RunGrammar.CommandLine.systemHost words
  RunGrammar.CommandLine.announce ending
  return ending.exitCode
