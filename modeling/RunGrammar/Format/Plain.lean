import RunGrammar.Format.Header

/-!
# The plain format

All fields have the width of a word or half a word, whatever their values: a bit
that tells whether the grammar is empty, the number of rules, the number of
terminals, the root, the number of blocks, and then for each rule, in creation
order, its left operand and the second field of its signed form.
-/

namespace RunGrammar.PlainFormat

/-- The bits of one rule. -/
def ruleBits (r : Rule) : List Bool :=
  Bits.ofNat 32 r.first.toNat ++ Bits.ofNat 64 (r.signedSecond % wordSpace).toNat

def headerBits (h : Header) : List Bool :=
  h.isEmpty :: Bits.ofNat 64 h.size ++ Bits.ofNat 64 h.terminals ++ Bits.ofNat 32 h.root
    ++ Bits.ofNat 64 h.blocks

/-- The bits of a grammar. -/
def bits (g : Grammar) : List Bool :=
  headerBits (.ofGrammar g) ++ g.bareRules.flatMap ruleBits

def encode (g : Grammar) : List UInt8 := Bits.pack (bits g)

/-- The bits of a grammar with this symbol in the field of the root. -/
def bitsWithRoot (field : Symbol) (g : Grammar) : List Bool :=
  headerBits (.withRoot field g) ++ g.bareRules.flatMap ruleBits

def encodeWithRoot (field : Symbol) (g : Grammar) : List UInt8 := Bits.pack (bitsWithRoot field g)

def readHeader : Read Header := do
  let isEmpty ← Read.bit
  let size ← Read.word 64
  let terminals ← Read.word 64
  let root ← Read.bits 32
  let blocks ← Read.word 64
  return { isEmpty, size, terminals, root, blocks }

def readRule : Read Rule := do
  let first ← Read.bits 32
  let second ← Read.word 64
  let symbol : Symbol := .ofNat first
  let signedSecond := (second : Int).bmod wordSpace
  match Rule.ofSigned? symbol signedSecond with
  | some r => return r
  | none => throw (.malformed (.noSuchRule symbol signedSecond (← Read.position)))

def read : Read Grammar := do
  let header ← readHeader
  header.checkSize 96
  let rules ← Read.collect readRule header.size #[]
  .ofExcept do
    header.checkBlocks rules.toList
    Grammar.ofRules header.terminals rules.toList (← header.rootSymbol)

def decode (bytes : List UInt8) : Except Failure Grammar := read.run bytes

end RunGrammar.PlainFormat
