import RunGrammar.Alphabet
import RunGrammar.Compression.Piece
import RunGrammar.Compression.Rounds
import Std.Data.HashMap

/-!
# Compression with names in order of appearance

The text holds symbols of the grammar throughout. A phase walks over the pieces
of the text from left to right; a rule that it meets for the first time gets the
next free symbol, and a table remembers that symbol for the rest of the phase.
There is one table for blocks and one for pairs. A phase empties the one that it
uses, at the start, and leaves the other as it is.
-/

namespace RunGrammar.FirstSeen

/-- The symbols of rules. -/
abbrev Table := Std.HashMap Rule Symbol

/-- The symbols of the rules met in the last phase that replaced runs, and in the last one that
replaced pairs. -/
structure Names where
  blocks : Table := ∅
  pairs : Table := ∅

namespace Names

instance : EmptyCollection Names := ⟨{}⟩

/-- The symbol of a rule in the table of its kind. -/
def find? (names : Names) (r : Rule) : Option Symbol :=
  if r.isBlock then names.blocks[r]? else names.pairs[r]?

/-- Remembers the symbol of a rule in the table of its kind. -/
def insert (names : Names) (r : Rule) (v : Symbol) : Names :=
  if r.isBlock then { names with blocks := names.blocks.insert r v }
  else { names with pairs := names.pairs.insert r v }

/-- Empties one of the tables. -/
def clear (names : Names) (isBlock : Bool) : Names :=
  if isBlock then { names with blocks := ∅ } else { names with pairs := ∅ }

end Names

/-- The symbol of a rule, which is created when it is met for the first time. -/
def nameOf (r : Rule) : Phase Names Symbol := do
  match (← get).tables.find? r with
  | some v => return v
  | none =>
    Phase.reserve 1
    let v ← Phase.create r
    modify fun w => { w with tables := w.tables.insert r v }
    return v

/-- The symbol that a piece leaves in the text. -/
def symbolOf : Piece → Phase Names Symbol
  | .kept c => return c
  | .folded r => nameOf r

/-- Writes the text that these pieces leave, and counts the replaced ones, all of which are blocks
or all of which are pairs. The text stays as it is until all pieces have their symbols;
`InPlace.replaceFirstSeen` overwrites it on the way. -/
def replace (isBlock : Bool) (pieces : List Piece) : Phase Names Nat := do
  modify fun w => { w with tables := w.tables.clear isBlock }
  let text ← pieces.mapM symbolOf
  modify fun w => { w with text }
  return Piece.foldedCount pieces

def replaceRuns : Phase Names Nat := do replace true (← get).text.runPieces

def replacePairs : Phase Names Nat := do
  let text := (← get).text
  replace false ((Partition.ofText text).pairPieces text)

def method : Method Names where
  name := "hash"
  prepare alphabetSize := Phase.check fun w => Alphabet.check w.text alphabetSize
  replaceRuns := replaceRuns
  replacePairs := replacePairs
  restore _ text := text

end RunGrammar.FirstSeen
