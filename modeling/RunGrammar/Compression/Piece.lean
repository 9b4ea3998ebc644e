import RunGrammar.Text.Runs
import RunGrammar.Rule
import RunGrammar.Partition.Basic

/-!
# Pieces of a text

A phase of compression reads a text as a sequence of pieces: symbols that stay,
and parts that a rule replaces. There are two ways to read it. By runs, every
maximal run of two or more symbols is a block; by a partition, every eligible
pair is a pair rule. Either way the pieces spell the text out again, and nothing
that could be replaced is left.
-/

namespace RunGrammar

inductive Piece where
  /-- A symbol that stays. -/
  | kept (c : Symbol)
  /-- A part of the text that the rule replaces. -/
  | folded (r : Rule)
deriving DecidableEq, Repr

namespace Piece

/-- The first symbol of the part of the text that a piece covers. -/
def first : Piece → Symbol
  | kept c => c
  | folded r => r.first

/-- The rule of a piece that is replaced. -/
def rule? : Piece → Option Rule
  | kept _ => none
  | folded r => some r

/-- The part of the text that a piece covers. -/
def text : Piece → Text
  | kept c => [c]
  | folded (.pair a b) => [a, b]
  | folded (.block a n) => List.replicate n.toNat a

def ofRun (run : Run) : Piece :=
  if run.length = 1 then kept run.symbol
  else folded (.block run.symbol (.ofNat run.length))

/-- How many pieces are replaced. -/
def foldedCount (pieces : List Piece) : Nat := pieces.countP (·.rule?.isSome)

end Piece

/-- A text as runs. -/
def Text.runPieces (text : Text) : List Piece := text.runs.map Piece.ofRun

/-- Reads pieces off the front of a text, behind those that were read before. -/
def Partition.readPairs (p : Partition) (read : Array Piece) : Text → Array Piece
  | a :: b :: rest =>
    if p.eligible a b then p.readPairs (read.push (.folded (.pair a b))) rest
    else p.readPairs (read.push (.kept a)) (b :: rest)
  | [a] => read.push (.kept a)
  | [] => read

/-- A text as eligible pairs and single symbols, from left to right. -/
def Partition.pairPieces (p : Partition) (text : Text) : List Piece :=
  (p.readPairs #[] text).toList

end RunGrammar
