import RunGrammar.Format.Header
import RunGrammar.Grammar.Renumbering

/-!
# The sorted format

The rules are stored in an order in which neighbours are alike: pairs before
blocks, and each kind by its first and then by its second field. Symbols are
renumbered to match, and each rule is stored as the differences of its fields
from those of the rule of its kind before it. Small numbers have short codes, so
this is the most compact format.

In this order an operand may come later than the rule that uses it. Reading
therefore ends with a renumbering, and the grammar that comes out has the same
rules as the one that was stored, but perhaps in another order.

The order of the fields: a bit that tells whether the grammar is empty, the
number of terminals, the number of rules, the number of blocks and the root,
then the differences for each pair and for each block.
-/

namespace RunGrammar.SortedFormat

/-- The order of the rules in storage. -/
def stored (r s : Rule) : Bool :=
  if r.isBlock = s.isBlock then r.le s else s.isBlock

/-- The positions of the rules in the order of storage. -/
def storageOrder (rules : List Rule) : Array Nat :=
  ((rules.zipIdx.mergeSort fun (r, _) (s, _) => stored r s).map (·.2)).toArray

/-- The two fields of a rule as they are stored. -/
def fields (r : Rule) : Int × Int := (r.first.toNat, r.second.toNat)

/-- The bits of the differences between the fields of neighbouring rules. -/
def differenceBits (previous : Int × Int) : List (Int × Int) → List Bool
  | [] => []
  | current :: rest =>
    Bits.signed (current.1 - previous.1) ++ Bits.signed (current.2 - previous.2)
      ++ differenceBits current rest

def headerBits (h : Header) : List Bool :=
  h.isEmpty :: Bits.gammaFromZero h.terminals ++ Bits.gammaFromZero h.size
    ++ Bits.gammaFromZero h.blocks ++ Bits.gammaFromZero h.root

/-- The symbol of every rule when they are numbered in the order of storage. -/
def storageIds (g : Grammar) : Array Symbol :=
  Grammar.newIds g.terminals g.size (storageOrder g.bareRules)

/-- The rules in the order of storage, numbered to match. -/
def storedRules (g : Grammar) : List Rule :=
  let rules := g.bareRules.toArray
  let ids := storageIds g
  (storageOrder g.bareRules).toList.filterMap fun k =>
    rules[k]?.map (Rule.rename (Grammar.renumber g.terminals ids))

/-- The header, in which the root is numbered to match, too. -/
def storedHeader (g : Grammar) : Header :=
  { Header.ofGrammar g with
    root := g.root.elim 0 fun v => (Grammar.renumber g.terminals (storageIds g) v).toNat }

/-- The bits of a grammar. -/
def bits (g : Grammar) : List Bool :=
  let rules := storedRules g
  headerBits (storedHeader g)
    ++ differenceBits (0, 0) ((rules.filter (!·.isBlock)).map fields)
    ++ differenceBits (0, 0) ((rules.filter (·.isBlock)).map fields)

def encode (g : Grammar) : List UInt8 := Bits.pack (bits g)

def readHeader : Read Header := do
  let isEmpty ← Read.bit
  let terminals ← Read.gammaFromZero
  let size ← Read.gammaFromZero
  let blocks ← Read.gammaFromZero
  let root ← Read.gammaFromZero
  return { isEmpty, size, terminals, root, blocks }

/-- Reads a field as a difference from the previous one. It is a natural number of 63 bits. -/
def readField (previous : Int) : Read Int := do
  let value := previous + (← Read.signed)
  let position ← Read.position
  if !Bits.isSignedWord value then throw (.malformed (.deltaOverflow position))
  if value < 0 then throw (.malformed (.negativeField value position))
  return value

/-- Reads rules of one kind behind those that are there already. -/
def readRules (make : Nat → Nat → Except Failure Rule) :
    (count : Nat) → (previous : Int × Int) → (done : Array Rule) → Read (Array Rule)
  | 0, _, done => return done
  | count + 1, previous, done => do
    let first ← readField previous.1
    let second ← readField previous.2
    let r ← Read.ofExcept (make first.toNat second.toNat)
    readRules make count (first, second) (done.push r)

def makePair (first second : Nat) : Except Failure Rule := do
  let a ← symbolOfNat first
  let b ← symbolOfNat second
  return .pair a b

def makeBlock (symbol count : Nat) : Except Failure Rule := do
  let a ← symbolOfNat symbol
  let n ← countOfNat count
  return .block a n

def read : Read Grammar := do
  let header ← readHeader
  if header.size < header.blocks then throw (.headerMismatch header.size header.blocks)
  header.checkSize 4
  let pairs ← readRules makePair (header.size - header.blocks) (0, 0) #[]
  let rules ← readRules makeBlock header.blocks (0, 0) pairs
  .ofExcept do Grammar.ofUnordered header.terminals rules.toList (← header.rootSymbol)

def decode (bytes : List UInt8) : Except Failure Grammar := read.run bytes

end RunGrammar.SortedFormat
