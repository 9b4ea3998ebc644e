import RunGrammar.Partition.Basic
import RunGrammar.Text.Sharing

/-!
# Partitions as tables

The symbols of a text lie between its smallest and its largest one, so their
classes fit into a table with one entry for each symbol of that range. The table
begins with everything in the lower class, and the groups of adjacencies are
placed one after the other, as they are for `Partition.upperClass`. Only symbols
of the range have an entry.

`ofTextIn` leaves the work to several threads. The smallest and the largest symbol
are reductions of the text, the adjacencies are sorted by comparison, and what
the chunks count is added up. A `Schedule` decides in which order all this is done;
of the thread library no more is used than that it does these things in some way.
-/

namespace RunGrammar

namespace Text

/-- The smallest and the largest symbol so far, after one more. -/
def widen : Option (Symbol × Symbol) → Symbol → Option (Symbol × Symbol)
  | none, c => some (c, c)
  | some (low, high), c => some (min low c, max high c)

/-- The smallest and the largest symbol of a text. Those of no symbols are zero. -/
def bounds (text : Text) : Symbol × Symbol := (text.foldl widen none).getD (0, 0)

/-- The smallest and the largest symbol of a text, found by reductions. There are none of parts
without symbols. -/
def boundsIn (least : Reducer (Option.merge (min : Symbol → Symbol → Symbol)) none)
    (greatest : Reducer (Option.merge (max : Symbol → Symbol → Symbol)) none) (text : Text) :
    Symbol × Symbol :=
  ((least.reduce (text.map some)).getD 0, (greatest.reduce (text.map some)).getD 0)

end Text

/-- The crossings among some neighbours. -/
def Partition.Crossings.ofNeighbours (upper : Symbol → Bool)
    (neighbours : List (Symbol × Symbol)) : Partition.Crossings where
  upwards := neighbours.countP fun (a, b) => !upper a && upper b
  downwards := neighbours.countP fun (a, b) => upper a && !upper b

/-- The classes of the symbols from `offset` on, and the one that is on the left. -/
structure ClassTable where
  offset : Symbol
  /-- Whether a symbol is in the upper class, for one symbol after the other. -/
  sides : Array Bool
  leftIsUpper : Bool
deriving DecidableEq, Repr

namespace ClassTable

/-- Where the entry of a symbol is, in a table that starts with `offset`. -/
def index (offset c : Symbol) : Nat := c.toNat - offset.toNat

/-- Whether the entries put a symbol into the upper class. -/
def sideIn (offset : Symbol) (sides : Array Bool) (c : Symbol) : Bool :=
  sides.getD (index offset c) false

/-- Sets the entry of the larger symbol of a group to the class opposite to the majority. -/
def place (offset : Symbol) (sides : Array Bool) : List Adjacency → Array Bool
  | [] => sides
  | x :: rest =>
    let above := (x :: rest).countP fun y => sideIn offset sides y.smaller
    let below := (x :: rest).countP fun y => !sideIn offset sides y.smaller
    sides.setIfInBounds (index offset x.larger) (above < below)

/-- The entries for the symbols from `low` to `high`, from the adjacencies in ascending order. -/
def fill (low high : Symbol) (sorted : List Adjacency) : Array Bool :=
  (sorted.splitBy fun x y => x.larger == y.larger).foldl (place low)
    (Array.replicate (index low high + 1) false)

/-- The crossings between neighbours of a text. -/
def crossings (offset : Symbol) (sides : Array Bool) (text : Text) : Partition.Crossings :=
  .ofNeighbours (sideIn offset sides) (text.zip text.tail)

/-- The table with these entries for which more crossings are eligible; upwards in a tie. -/
def choose (offset : Symbol) (sides : Array Bool) (crossings : Partition.Crossings) : ClassTable :=
  ⟨offset, sides, crossings.upwards < crossings.downwards⟩

/-- The table for a text without equal neighbours. -/
def ofText (text : Text) : ClassTable :=
  let (low, high) := text.bounds
  let sides := fill low high (Adjacency.sort (Adjacency.ofText text))
  choose low sides (crossings low sides text)

/-- How threads share the work on a table, which is up to the thread library. -/
structure Schedule where
  least : Reducer (Option.merge (min : Symbol → Symbol → Symbol)) none
  greatest : Reducer (Option.merge (max : Symbol → Symbol → Symbol)) none
  sorter : Sorter Adjacency.le
  total : Reducer Partition.Crossings.add ⟨0, 0⟩

/-- One step after the other. -/
def Schedule.sequential : Schedule where
  least := .sequential _ _
  greatest := .sequential _ _
  sorter := .merging Adjacency.le_trans Adjacency.le_total
  total := .sequential _ _

/-- The table for a text without equal neighbours, with the work on it shared. The crossings are
counted in `parts` chunks. -/
def ofTextIn (s : Schedule) (parts : Nat) (text : Text) : ClassTable :=
  let (low, high) := text.boundsIn s.least s.greatest
  let sides := fill low high (s.sorter.sort (Adjacency.ofText text))
  let counts := (Chunk.split text.length parts).map fun chunk =>
    crossings low sides ((chunk.widened text.length).slice text.toArray)
  choose low sides (s.total.reduce counts)

def isUpper (t : ClassTable) (c : Symbol) : Bool := sideIn t.offset t.sides c

/-- Whether `a` followed by `b` is replaced. -/
def eligible (t : ClassTable) (a b : Symbol) : Bool :=
  t.isUpper a == t.leftIsUpper && !(t.isUpper b == t.leftIsUpper)

end ClassTable

end RunGrammar
