import RunGrammar.Format.Header

/-!
# The fixed-width format

Every id takes as many bits as the number of all symbols needs, and every number
of copies as many as the largest of them needs. Both widths are stored, less one,
in six bits. The order of the fields: a bit that tells whether the grammar is
empty, the width of ids, the number of rules, the number of terminals, the root
and the number of blocks in this width, and the width of counts; then for each
rule, in creation order, a bit that is set for blocks, the left operand, and the
second field.
-/

namespace RunGrammar.FixedFormat

/-- The number of copies of a block, and zero for a pair. -/
def copies : Rule → Nat
  | .pair .. => 0
  | .block _ n => n.toNat

/-- The width of ids. -/
def idWidth (g : Grammar) : Nat := bitWidth (g.terminals + g.size)

/-- The width of counts. -/
def countWidth (g : Grammar) : Nat :=
  bitWidth (g.bareRules.foldl (fun bound r => max bound (copies r)) 0)

/-- The bits of one rule in these widths. -/
def ruleBits (width countWidth : Nat) : Rule → List Bool
  | .pair a b => false :: Bits.ofNat width a.toNat ++ Bits.ofNat width b.toNat
  | .block a n => true :: Bits.ofNat width a.toNat ++ Bits.ofNat countWidth n.toNat

def headerBits (width countWidth : Nat) (h : Header) : List Bool :=
  h.isEmpty :: Bits.ofNat 6 (width - 1) ++ Bits.ofNat width h.size ++ Bits.ofNat width h.terminals
    ++ Bits.ofNat width h.root ++ Bits.ofNat width h.blocks ++ Bits.ofNat 6 (countWidth - 1)

/-- The bits of a grammar. -/
def bits (g : Grammar) : List Bool :=
  headerBits (idWidth g) (countWidth g) (.ofGrammar g)
    ++ g.bareRules.flatMap (ruleBits (idWidth g) (countWidth g))

def encode (g : Grammar) : List UInt8 := Bits.pack (bits g)

/-- The bits of a grammar with this symbol in the field of the root. Of a symbol that is too large
for the field, the low bits are kept. -/
def bitsWithRoot (field : Symbol) (g : Grammar) : List Bool :=
  headerBits (idWidth g) (countWidth g) (.withRoot field g)
    ++ g.bareRules.flatMap (ruleBits (idWidth g) (countWidth g))

def encodeWithRoot (field : Symbol) (g : Grammar) : List UInt8 := Bits.pack (bitsWithRoot field g)

/-- A header with the widths that it announces. -/
structure WideHeader extends Header where
  width : Nat
  countWidth : Nat
deriving DecidableEq, Repr

def readHeader : Read WideHeader := do
  let isEmpty ← Read.bit
  let width := (← Read.bits 6) + 1
  let size ← Read.word width
  let terminals ← Read.word width
  let root ← Read.word width
  let blocks ← Read.word width
  let countWidth := (← Read.bits 6) + 1
  return { isEmpty, size, terminals, root, blocks, width, countWidth }

def readRule (width countWidth : Nat) : Read Rule := do
  let isBlock ← Read.bit
  let first ← Read.ofExcept (symbolOfNat (← Read.word width))
  if isBlock then
    return .block first (← Read.ofExcept (countOfNat (← Read.word countWidth)))
  else
    return .pair first (← Read.ofExcept (symbolOfNat (← Read.word width)))

def read : Read Grammar := do
  let header ← readHeader
  header.checkSize (1 + header.width + min header.width header.countWidth)
  let rules ← Read.collect (readRule header.width header.countWidth) header.size #[]
  .ofExcept do
    header.checkBlocks rules.toList
    Grammar.ofRules header.terminals rules.toList (← header.rootSymbol)

def decode (bytes : List UInt8) : Except Failure Grammar := read.run bytes

end RunGrammar.FixedFormat
