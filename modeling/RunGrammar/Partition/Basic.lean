import RunGrammar.Partition.Adjacency
import RunGrammar.Text.Chunks
import Std.Data.TreeSet

/-!
# Partitions of an alphabet

To replace pairs without overlaps the symbols are put into two classes, a lower
and an upper one, and one of them is chosen to be on the left. A pair is
eligible when its first symbol is in the left class and its second one is not.
No symbol can then be the second of one eligible pair and the first of the next.

The classes are assigned greedily in ascending order of the symbols: a symbol
goes to the class opposite to the majority of its smaller neighbours, counted as
often as they occur, and stays in the lower class in a tie. At least half of the
adjacencies end up between the classes, and the left class is chosen so that the
more frequent direction is eligible.

`ofTextIn` computes the same partition from a sort by comparison and from counts
for each chunk, where an adjacency belongs to the chunk of its first symbol. It
does so in one fixed order; `ClassTable.ofTextIn` admits every order in which
threads may share this work.
-/

namespace RunGrammar

/-- Two classes of symbols, one of which is on the left of eligible pairs. -/
structure Partition where
  /-- The upper class; all other symbols are in the lower one. -/
  upper : Std.TreeSet Symbol
  leftIsUpper : Bool

namespace Partition

def isUpper (p : Partition) (c : Symbol) : Bool := p.upper.contains c

def isLeft (p : Partition) (c : Symbol) : Bool := p.isUpper c == p.leftIsUpper

/-- Whether `a` followed by `b` is replaced. -/
def eligible (p : Partition) (a b : Symbol) : Bool := p.isLeft a && !p.isLeft b

/-- Puts the larger symbol of a group of adjacencies into the class opposite to the majority. -/
def place (upper : Std.TreeSet Symbol) : List Adjacency → Std.TreeSet Symbol
  | [] => upper
  | x :: rest =>
    let above := (x :: rest).countP fun y => upper.contains y.smaller
    let below := (x :: rest).countP fun y => !upper.contains y.smaller
    if above < below then upper.insert x.larger else upper

/-- The upper class, from the adjacencies in ascending order. -/
def upperClass (sorted : List Adjacency) : Std.TreeSet Symbol :=
  (sorted.splitBy fun x y => x.larger == y.larger).foldl place ∅

/-- How many neighbours lead from one class into the other. -/
structure Crossings where
  upwards : Nat
  downwards : Nat
deriving DecidableEq, Repr

namespace Crossings

def add (x y : Crossings) : Crossings := ⟨x.upwards + y.upwards, x.downwards + y.downwards⟩

/-- The crossings between neighbours of a text. -/
def ofText (upper : Std.TreeSet Symbol) (text : Text) : Crossings :=
  let neighbours := text.zip text.tail
  { upwards := neighbours.countP fun (a, b) => !upper.contains a && upper.contains b
    downwards := neighbours.countP fun (a, b) => upper.contains a && !upper.contains b }

end Crossings

/-- The partition with this upper class for which more crossings are eligible; upwards in a tie. -/
def choose (upper : Std.TreeSet Symbol) (crossings : Crossings) : Partition :=
  ⟨upper, crossings.upwards < crossings.downwards⟩

/-- The partition for a text without equal neighbours. -/
def ofText (text : Text) : Partition :=
  let upper := upperClass (Adjacency.sort (Adjacency.ofText text))
  choose upper (Crossings.ofText upper text)

/-- The partition for a text without equal neighbours, counting the crossings in `parts` chunks. -/
def ofTextIn (parts : Nat) (text : Text) : Partition :=
  let upper := upperClass (Adjacency.sortByComparison (Adjacency.ofText text))
  let symbols := text.toArray
  let counts := (Chunk.split symbols.size parts).map fun chunk =>
    Crossings.ofText upper ((chunk.widened symbols.size).slice symbols)
  choose upper (counts.foldl Crossings.add ⟨0, 0⟩)

/-- No symbol is the second of one eligible pair and the first of another. -/
theorem not_eligible_of_eligible {p : Partition} {a b : Symbol} (h : p.eligible a b) (c : Symbol) :
    p.eligible b c = false := by
  simp only [eligible, Bool.and_eq_true, Bool.not_eq_true'] at h
  simp [eligible, h.2]

end Partition

end RunGrammar
