import RunGrammar.Bits.Reader
import RunGrammar.Grammar.Basic

/-!
# The header of a stored grammar

All formats begin with the same five facts about a grammar and differ only in
how they write them. What a header declares is held against what follows it: the
rules must fit into the bits that are left before any of them is read, and the
number of blocks must be right.
-/

namespace RunGrammar

structure Header where
  isEmpty : Bool
  size : Nat
  terminals : Nat
  /-- The root; the field is there for an empty grammar, too, but has no meaning. -/
  root : Nat
  blocks : Nat
deriving DecidableEq, Repr

namespace Header

def ofGrammar (g : Grammar) : Header where
  isEmpty := g.isEmpty
  size := g.size
  terminals := g.terminals
  root := g.root.elim 0 (·.toNat)
  blocks := g.blocks

/-- The header with this symbol in the field of the root. A grammar that was emptied may have kept
the root that it had before, and then that is what stands in the field. -/
def withRoot (field : Symbol) (g : Grammar) : Header := { ofGrammar g with root := field.toNat }

/-- Fails unless the declared rules can follow when each takes at least `ruleBits` bits. -/
def checkSize (h : Header) (ruleBits : Nat) : Read Unit := do
  let remaining := (← get).remaining
  if remaining < h.size * ruleBits then
    throw (.malformed (.tooManyRules h.size remaining))

/-- Fails unless as many blocks follow as the header declares. -/
def checkBlocks (h : Header) (rules : List Rule) : Except Failure Unit :=
  let found := rules.countP (·.isBlock)
  if found = h.blocks then .ok () else .error (.headerMismatch h.blocks found)

/-- The root as a symbol; an empty grammar has none, whatever the field says. -/
def rootSymbol (h : Header) : Except Failure (Option Symbol) :=
  if h.isEmpty then .ok none
  else if h.root < idSpace then .ok (some (.ofNat h.root))
  else .error (.malformed (.rootRange h.root))

end Header

/-- A stored number as a symbol. -/
def symbolOfNat (value : Nat) : Except Failure Symbol :=
  if value < idSpace then .ok (.ofNat value) else .error (.malformed (.symbolRange value))

/-- A stored number as a number of copies. -/
def countOfNat (value : Nat) : Except Failure UInt32 :=
  if value < idSpace then .ok (.ofNat value) else .error (.malformed (.countRange value))

/-- Takes over a result that does not depend on bits. -/
def Read.ofExcept {α : Type} : Except Failure α → Read α
  | .ok a => pure a
  | .error e => throw e

end RunGrammar
