import RunGrammar.Symbol

/-!
# What can go wrong

A `Failure` names the cause with the values that show it; the wording lives in
`Failure.message` alone. Queries outside a text are not failures: they have
empty answers.

The many ways in which stored or hand-made rules can be unsound are collected in
`Defect`. `FileFault` is the part that a file system reports.
-/

namespace RunGrammar

/-- Why a file could not be read or written. -/
inductive FileFault where
  | notFound
  | isDirectory
  | notDirectory
  | nameTooLong
  | other (description : String)
deriving DecidableEq, Repr

/-- The text a system gives for a fault. -/
def FileFault.message : FileFault → String
  | notFound => "No such file or directory (os error 2)"
  | isDirectory => "Is a directory (os error 21)"
  | notDirectory => "Not a directory (os error 20)"
  | nameTooLong => "File name too long (os error 36)"
  | other description => description

/-- Why a list of rules, or the bits that should hold one, is not a grammar. -/
inductive Defect where
  /-- There are more symbols than ids. -/
  | idRange (terminals rules : Nat)
  /-- A rule refers to itself or to a later rule. -/
  | laterOperand (id : Nat) (operand : Symbol)
  /-- The block with this id has fewer than two copies. -/
  | shortBlock (id : Nat) (count : UInt32)
  /-- A block that has no id of its own yet has fewer than two copies. -/
  | shortLooseBlock (count : UInt32)
  | unknownRoot (root : Symbol)
  | undefinedSymbol (symbol : Symbol)
  /-- The rule of this symbol refers to itself, directly or through other rules. -/
  | cycle (symbol : Symbol)
  /-- The bits that follow a header cannot hold as many rules as it declares. -/
  | tooManyRules (declared remaining : Nat)
  | rootRange (value : Nat)
  | symbolRange (value : Nat)
  | countRange (value : Nat)
  /-- No rule has this signed form. -/
  | noSuchRule (first : Symbol) (second : Int) (position : Nat)
  | deltaOverflow (position : Nat)
  | negativeField (value : Int) (position : Nat)
  | longGamma (position : Nat)
  | signedRange (position : Nat)
  | described (text : String)
deriving DecidableEq, Repr

def Defect.message : Defect → String
  | idRange terminals rules =>
    s!"{terminals} terminals and {rules} productions exceed the symbol id range"
  | laterOperand id operand => s!"production {id} references {operand}"
  | shortBlock id count => s!"block {id} repeats its symbol {count} times"
  | shortLooseBlock count => s!"block repeats its symbol {count} times"
  | unknownRoot root => s!"root {root} is not a symbol of the grammar"
  | undefinedSymbol symbol => s!"symbol {symbol} is not defined"
  | cycle symbol => s!"production {symbol} is part of a cycle"
  | tooManyRules declared remaining =>
    s!"header declares {declared} rules but only {remaining} bits follow"
  | rootRange value => s!"root {value} out of range"
  | symbolRange value => s!"symbol {value} out of range"
  | countRange value => s!"block count {value} out of range"
  | noSuchRule first second position =>
    s!"invalid rule ({first}, {second}) at bit {position}"
  | deltaOverflow position => s!"delta overflow at bit {position}"
  | negativeField value position => s!"negative field {value} at bit {position}"
  | longGamma position => s!"gamma code longer than 64 bits at bit {position}"
  | signedRange position => s!"signed value out of range at bit {position}"
  | described text => text

/-- Everything that can go wrong while a grammar is built, stored or loaded. -/
inductive Failure where
  | file (fault : FileFault)
  /-- A text holds a symbol that is not below the size of its alphabet. -/
  | outsideAlphabet (symbol bound : Nat)
  /-- The terminals and the rules together need more ids than there are. -/
  | idSpaceExhausted (terminals rules : Nat)
  /-- A round of compression left the text as long as it was. -/
  | noProgress (level length : Nat)
  | unknownStrategy (name : String)
  | unknownFormat (name : String)
  /-- The bits end inside a field; the position is that of the field's first missing read. -/
  | unexpectedEnd (position : Nat)
  /-- A header disagrees with the rules that follow it. -/
  | headerMismatch (declared found : Nat)
  | malformed (defect : Defect)
deriving DecidableEq, Repr

def Failure.message : Failure → String
  | file fault =>
    let text := fault.message
    s!"I/O error: {text}"
  | outsideAlphabet symbol bound => s!"symbol {symbol} exceeds the alphabet bound {bound}"
  | idSpaceExhausted terminals rules =>
    s!"{terminals} terminals and {rules} productions exceed the symbol id space"
  | noProgress level length =>
    s!"recompression made no progress at level {level} (text length {length})"
  | unknownStrategy name => s!"unknown recompression algorithm: {name}"
  | unknownFormat name => s!"unknown coder: {name}"
  | unexpectedEnd position => s!"unexpected end of encoded grammar at bit {position}"
  | headerMismatch declared found =>
    s!"serialization mismatch: header declares {declared}, found {found}"
  | malformed defect =>
    let text := defect.message
    s!"invalid encoded grammar: {text}"

end RunGrammar
