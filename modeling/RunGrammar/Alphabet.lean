import RunGrammar.Failure
import RunGrammar.Text.Ascending
import RunGrammar.Text.Chunks
import Std.Data.TreeSet

/-!
# Letters and dense alphabets

The letters of a text are the symbols that occur in it. A dense text uses the
symbols below the number of its letters, and a mapping of letters turns it back
into the text it came from: the symbol `k` stands for entry `k` of the mapping.
Mappings are ascending, so going dense keeps the order of the symbols.

`replaceLetters` makes a text dense. `replaceLettersIn` does the same chunk by
chunk: each chunk finds its own letters, and the sets are united before any
symbol is replaced, so the number of chunks does not show in the answer.
`prune` restores density after letters have come and gone.
-/

namespace RunGrammar.Alphabet

/-- Fails on the first symbol that is not below `size`. -/
def check (text : Text) (size : Nat) : Except Failure Unit :=
  match text.find? fun c => size ≤ c.toNat with
  | some c => .error (.outsideAlphabet c.toNat size)
  | none => .ok ()

/-- Checks chunk after chunk, so that the first one with a symbol out of range reports it. -/
def checkIn (chunks : List Chunk) (text : Array Symbol) (size : Nat) : Except Failure Unit :=
  chunks.forM fun chunk => check (chunk.slice text) size

/-- The letters of a text, ascending. -/
def letters (text : Text) : Array Symbol := (Std.TreeSet.ofList text).toArray

/-- The union of two sets of symbols. -/
def unite (s t : Std.TreeSet Symbol) : Std.TreeSet Symbol := s.insertMany t.toList

/-- The letters of a text that is given in chunks, ascending. -/
def lettersIn (chunks : List Chunk) (text : Array Symbol) : Array Symbol :=
  let parts := chunks.map fun chunk => Std.TreeSet.ofList (chunk.slice text)
  (parts.foldl unite ∅).toArray

/-- The number of letters before a symbol. -/
def rank (mapping : Array Symbol) (c : Symbol) : Symbol := .ofNat (frontLength (· < c) mapping)

/-- The letter that a dense symbol stands for. -/
def letter (mapping : Array Symbol) (c : Symbol) : Symbol := mapping.getD c.toNat c

/-- A dense text with the mapping that leads back. -/
structure Dense where
  text : Text
  mapping : Array Symbol
deriving DecidableEq, Repr

/-- The text with every dense symbol replaced by its letter. -/
def Dense.plainText (d : Dense) : Text := d.text.map (letter d.mapping)

/-- Makes a text over an alphabet of `size` symbols dense. -/
def replaceLetters (text : Text) (size : Nat) : Except Failure Dense := do
  check text size
  let mapping := letters text
  return ⟨text.map (rank mapping), mapping⟩

/-- Makes a text dense, working on `parts` chunks. -/
def replaceLettersIn (parts : Nat) (text : Text) (size : Nat) : Except Failure Dense := do
  let symbols := text.toArray
  let chunks := Chunk.split symbols.size parts
  checkIn chunks symbols size
  let mapping := lettersIn chunks symbols
  return ⟨text.map (rank mapping), mapping⟩

/-- Drops the entries of the mapping that the text does not use. -/
def prune (d : Dense) : Dense :=
  let used := letters d.text
  ⟨d.text.map (rank used), used.filterMap fun c => d.mapping[c.toNat]?⟩

end RunGrammar.Alphabet
