import RunGrammar.CommandLine.Options
import RunGrammar.Compression.Strategy
import RunGrammar.Decimal.Places
import RunGrammar.Files.Basic
import RunGrammar.Grammar.Expansion
import RunGrammar.Grammar.Measures

/-!
# Compressing a file

A job looks up the names that it is given before it touches any file. It then
compresses the input, prints what came out, and stores the grammar if a format is
asked for. With verification the grammar, and the one that is read back from the
file, are both expanded and compared with the input; a difference is not a
failure of the job but its answer.

What the job needs from outside is its host, so that the same job runs in memory
and on real files. The chunked strategy works on threads, and these come from the
host, too. Starting them can fail, and then the job ends between reading the input
and compressing it.
-/

namespace RunGrammar.CommandLine

/-- What a job needs from the program around it. -/
structure Host (m : Type → Type) [Pure m] where
  files : Files m
  /-- Prints a line to the standard output. -/
  print : String → m Unit
  /-- Prints a line to the standard error. -/
  printError : String → m Unit
  /-- Passes on a report of the progress. -/
  report : Severity → String → m Unit
  /-- The time in milliseconds from some moment on. -/
  clock : m Nat
  /-- Starts so many threads, or tells why there are none. By default there is nothing to start. -/
  startThreads : (count : Nat) → m (Except String Unit) := fun _ => pure (.ok ())

/-- Why a job ends without an answer. -/
inductive JobFailure where
  | failed (e : Failure)
  /-- The threads of the chunked strategy could not be started. -/
  | noThreads (description : String)
deriving DecidableEq, Repr

def JobFailure.message : JobFailure → String
  | failed e => e.message
  | noThreads description => s!"failed to build thread pool: {description}"

/-- Elapsed time in seconds with three places. -/
def seconds (milliseconds : Nat) : String := Decimal.withPoint 3 milliseconds

/-- The line that sums a grammar up. -/
def summary (strategy : Strategy) (measured : Measures) (milliseconds : Nat) : String :=
  let name := strategy.name
  let time := seconds milliseconds
  let ⟨textLength, rules, blocks, pairs, depth⟩ := measured
  s!"{name}: {textLength} symbols -> {rules} productions " ++
    s!"({blocks} blocks, {pairs} pairs, depth {depth}) in {time}s"

/-- The line with the compression ratio. -/
def ratioLine (measured : Measures) : String :=
  let ratio := Decimal.ofFloat 2 measured.ratio
  s!"Compression ratio: {ratio}%"

/-- The line that tells where the grammar was stored. -/
def storedLine (format : Format) (bytes : Nat) (output : String) : String :=
  let name := format.name
  s!"{name}: {bytes} bytes written to {output}"

namespace Options

/-- The name of the file for the grammar. -/
def outputName (o : Options) (format : Format) : String :=
  o.output.getD (o.input ++ "." ++ format.fileExtension)

/-- The severities that are reported at a verbosity. -/
def reports (o : Options) : Severity → Bool
  | .error | .warning => true
  | .info => 1 ≤ o.verbosity
  | .debug => 2 ≤ o.verbosity

end Options

variable {m : Type → Type} [Monad m]

/-- Passes on a report if the verbosity asks for it. -/
def Host.tell (host : Host m) (o : Options) (severity : Severity) (text : String) : m Unit :=
  if o.reports severity then host.report severity text else pure ()

/-- Stores a grammar and, with verification, says whether what is read back derives the text. -/
def storeGrammar (host : Host m) (o : Options) (format : Format) (g : Grammar) (text : Text) :
    ExceptT Failure m Bool := do
  let output := o.outputName format
  let bytes ← host.files.store format output g
  let name := format.name
  host.tell o .info s!"{name}: wrote {bytes} bytes to {output}"
  host.print (storedLine format bytes output)
  if o.verify then
    let stored ← host.files.load format output
    let derives := stored.derivedText == text
    host.tell o .info s!"stored grammar reproduces the input: {derives}"
    return derives
  else return true

/-- Reads the text that is to be compressed. -/
def readInput (host : Host m) (o : Options) : ExceptT Failure m Text := do
  let contents ← host.files.contents o.input
  let text := Text.ofContents o.limit o.dropZeroes contents
  let symbols := text.length
  let bytes := (firstBytes o.limit contents).length
  let name := o.input
  host.tell o .debug s!"read {symbols} symbols from {name} ({bytes} bytes)"
  return text

/-- What a job is to do, and on which text. -/
structure Task where
  strategy : Strategy
  format : Option Format
  text : Text

/-- Looks the names up and then reads the text. -/
def prepare (host : Host m) (o : Options) : ExceptT Failure m Task := do
  let strategy ← MonadExcept.ofExcept (Strategy.ofName o.strategy)
  let format ← MonadExcept.ofExcept (o.format.mapM Format.ofName)
  let text ← readInput host o
  return { strategy, format, text }

/-- Starts the threads that a strategy needs. Only the chunked one needs any, and at least one. -/
def startStrategy (host : Host m) (o : Options) : Strategy → ExceptT JobFailure m Unit
  | .firstSeen | .dense => return
  | .chunked => do
    match ← host.startThreads (max 1 o.parts) with
    | .ok () => return
    | .error description => throw (.noThreads description)

/-- Compresses the text of a task, and stores the grammar if the task says so. -/
def carryOut (host : Host m) (o : Options) (task : Task) : ExceptT Failure m Bool := do
  let ⟨strategy, format, text⟩ := task
  let started ← host.clock
  let outcome := strategy.compress o.parts byteAlphabet text
  outcome.events.forM fun event => host.tell o event.severity event.message
  let g ← MonadExcept.ofExcept outcome.result
  let finished ← host.clock
  host.print (summary strategy g.measures (finished - started))
  host.print (ratioLine g.measures)
  let derives := !o.verify || g.derivedText == text
  if o.verify then host.tell o .info s!"grammar reproduces the input: {derives}"
  match format with
  | none => return derives
  | some format => return derives && (← storeGrammar host o format g text)

/-- Carries out what the options ask for. The answer is false if a verification fails. -/
def run (host : Host m) (o : Options) : ExceptT JobFailure m Bool := do
  let task ← (prepare host o).adapt .failed
  startStrategy host o task.strategy
  (carryOut host o task).adapt .failed

/-- How a command ends. -/
inductive Ending where
  /-- Everything went through. -/
  | success
  /-- The job failed, or a verification did. -/
  | failure
  /-- The command line makes no sense. -/
  | misuse (fault : UsageFault)
  | help
  | version
deriving DecidableEq, Repr

namespace Ending

def exitCode : Ending → UInt32
  | success | help | version => 0
  | failure => 1
  | misuse _ => 2

def ofStop : Stop → Ending
  | .help => help
  | .version => version
  | .fault f => misuse f

end Ending

/-- Ends a command for a reason, which is reported and printed. -/
def fail (host : Host m) (reason : String) : m Ending := do
  host.report .error reason
  host.printError s!"error: {reason}"
  return .failure

/-- Runs a whole command, from its words to its ending. -/
def command (host : Host m) (words : List String) : m Ending := do
  match Options.ofWords words with
  | .error stop => return .ofStop stop
  | .ok o =>
    match ← (run host o).run with
    | .ok true => return .success
    | .ok false => fail host "verification failed"
    | .error e => fail host e.message

end RunGrammar.CommandLine
