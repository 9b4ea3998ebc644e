import RunGrammar.Symbol

/-!
# Command line options

The words of a command line are taken one after the other. A word of two hyphens
and a name is a long option, and a word of one hyphen is a row of single letters;
all other words are operands, and after a lone `--` there are operands only. An
option that has a value takes it from the same word, behind an equals sign or
directly behind its letter, or else from the next word, which then must not look
like an option. Only the verbosity may be given more than once.

The first word at fault, or the first that asks for help or for the version, ends
the reading, whatever comes behind it.
-/

namespace RunGrammar.CommandLine

/-- What the command is asked to do. Names of strategies and formats are not looked up yet. -/
structure Options where
  input : String
  strategy : String := "fast"
  /-- The number of parts in which the chunked strategy works. -/
  parts : Nat := 1
  /-- How many bytes of the input to take; zero stands for all of them. -/
  limit : Nat := 0
  format : Option String := none
  dropZeroes : Bool := false
  output : Option String := none
  verify : Bool := false
  verbosity : Nat := 0
deriving DecidableEq, Repr

/-- An option, however it is spelled. -/
inductive Key where
  | strategy
  | parts
  | limit
  | format
  | dropZeroes
  | output
  | verify
  | verbose
  | help
  | version
deriving DecidableEq, Repr

/-- Why a command line cannot be understood. -/
inductive UsageFault where
  | unknownOption (word : String)
  | missingValue (key : Key)
  | needlessValue (word : String)
  | repeated (key : Key)
  | notANumber (value : String)
  | emptyPath
  | tooManyOperands (word : String)
  | missingInput
deriving DecidableEq, Repr

/-- Why the reading of a command line ends early. -/
inductive Stop where
  | help
  | version
  | fault (fault : UsageFault)
deriving DecidableEq, Repr

namespace Key

def all : List Key :=
  [strategy, parts, limit, format, dropZeroes, output, verify, verbose, help, version]

def longName : Key → String
  | strategy => "algorithm"
  | parts => "cores"
  | limit => "prefix"
  | format => "coder"
  | dropZeroes => "remove-zeroes"
  | output => "output"
  | verify => "verify"
  | verbose => "verbose"
  | help => "help"
  | version => "version"

def letter? : Key → Option Char
  | strategy => some 'a'
  | parts => some 'c'
  | limit => some 'p'
  | format => none
  | dropZeroes => none
  | output => some 'o'
  | verify => none
  | verbose => some 'v'
  | help => some 'h'
  | version => some 'V'

def takesValue : Key → Bool
  | strategy | parts | limit | format | output => true
  | dropZeroes | verify | verbose | help | version => false

def ofLongName? (name : String) : Option Key := all.find? (·.longName == name)

def ofLetter? (letter : Char) : Option Key := all.find? (·.letter? == some letter)

end Key

/-- What is known in the middle of a command line. -/
structure Draft where
  /-- The options so far; the input counts only once it is among the operands. -/
  options : Options := { input := "" }
  hasInput : Bool := false
  /-- The options that may not be given again. -/
  given : List Key := []
  /-- The option whose value is to be the next word. -/
  awaiting : Option Key := none
  operandsOnly : Bool := false
deriving DecidableEq, Repr

/-- A number of at most 64 bits, in decimal digits with perhaps a plus sign. -/
def number (value : String) : Except Stop Nat :=
  let digits : List Char := match value.toList with
    | '+' :: rest => rest
    | unsigned => unsigned
  let result := digits.foldl (fun n c => 10 * n + (c.toNat - '0'.toNat)) 0
  if !digits.isEmpty && digits.all Char.isDigit && result < wordSpace then .ok result
  else .error (.fault (.notANumber value))

/-- The name of a file, which must not be empty. -/
def path (value : String) : Except Stop String :=
  if value = "" then .error (.fault .emptyPath) else .ok value

/-- The options with this value for an option that has one. -/
def Options.assign (o : Options) (key : Key) (value : String) : Except Stop Options :=
  match key with
  | .strategy => return { o with strategy := value }
  | .parts => return { o with parts := ← number value }
  | .limit => return { o with limit := ← number value }
  | .format => return { o with format := some value }
  | .output => return { o with output := some (← path value) }
  | .dropZeroes | .verify | .verbose | .help | .version => return o

/-- The options with this option raised, for one without a value. -/
def Options.raise (o : Options) (key : Key) : Except Stop Options :=
  match key with
  | .dropZeroes => return { o with dropZeroes := true }
  | .verify => return { o with verify := true }
  | .verbose => return { o with verbosity := o.verbosity + 1 }
  | .help => throw .help
  | .version => throw .version
  | .strategy | .parts | .limit | .format | .output => return o

namespace Draft

/-- Notes that an option is given, which is a fault when it was given before. -/
def note (d : Draft) (key : Key) : Except Stop Draft :=
  if key = .verbose then return d
  else if d.given.contains key then throw (.fault (.repeated key))
  else return { d with given := key :: d.given }

def assign (d : Draft) (key : Key) (value : String) : Except Stop Draft := do
  let noted ← d.note key
  return { noted with options := ← d.options.assign key value, awaiting := none }

def raise (d : Draft) (key : Key) : Except Stop Draft := do
  let noted ← d.note key
  return { noted with options := ← d.options.raise key }

/-- Takes an operand; there is room for one. -/
def operand (d : Draft) (word : String) : Except Stop Draft := do
  if d.hasInput then throw (.fault (.tooManyOperands word))
  return { d with options := { d.options with input := ← path word }, hasInput := true }

/-- Takes a long option, given as the letters of its name and, if there is an equals sign, what
follows the sign. -/
def longOption (d : Draft) (word : List Char) : Except Stop Draft := do
  let name := String.ofList (word.takeWhile (· != '='))
  let value := word.dropWhile (· != '=')
  let some key := Key.ofLongName? name | throw (.fault (.unknownOption name))
  match value with
  | [] => if key.takesValue then return { d with awaiting := some key } else d.raise key
  | _ :: text =>
    if key.takesValue then d.assign key (.ofList text)
    else throw (.fault (.needlessValue name))

/-- Takes a row of letters. The first option with a value takes what is left of the row. -/
def letters (d : Draft) : List Char → Except Stop Draft
  | [] => .ok d
  | c :: rest =>
    match Key.ofLetter? c with
    | none => .error (.fault (.unknownOption c.toString))
    | some key =>
      if key.takesValue then
        match rest with
        | [] => .ok { d with awaiting := some key }
        | '=' :: value => d.assign key (.ofList value)
        | value => d.assign key (.ofList value)
      else do letters (← d.raise key) rest

/-- Takes a word that cannot be the value of an option. -/
def freshWord (d : Draft) (word : String) : Except Stop Draft :=
  match word.toList with
  | ['-', '-'] => .ok { d with operandsOnly := true }
  | '-' :: '-' :: name => d.longOption name
  | ['-'] => d.operand word
  | '-' :: row => d.letters row
  | _ => d.operand word

/-- Whether a word may be the value of the option before it. -/
def isValue (word : String) : Bool := word = "-" || !word.startsWith "-"

def word (d : Draft) (word : String) : Except Stop Draft :=
  if d.operandsOnly then d.operand word
  else match d.awaiting with
    | some key =>
      if isValue word then d.assign key word else .error (.fault (.missingValue key))
    | none => d.freshWord word

/-- The options when no more words follow. -/
def finish (d : Draft) : Except Stop Options :=
  match d.awaiting with
  | some key => .error (.fault (.missingValue key))
  | none => if d.hasInput then .ok d.options else .error (.fault .missingInput)

end Draft

/-- The options that the words of a command line give. -/
def Options.ofWords (words : List String) : Except Stop Options := do
  let draft ← words.foldlM Draft.word {}
  draft.finish

end RunGrammar.CommandLine
