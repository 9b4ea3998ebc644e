import RunGrammar.Rule
import RunGrammar.Failure

/-!
# Run-length straight-line grammars

A grammar has terminals, rules, and perhaps a root. The rules lie in an arena:
rule `k` is named by the symbol `terminals + k`, and in a sound grammar its
operands are smaller than that symbol. This order is the only thing that makes
the rules acyclic, and it is what lets every table over the rules be filled in
one forward pass.

A rule is stored with the length of its expansion. `push` computes that length
from the lengths of the operands, stopping at `lengthCap`; `computeLengths` does
the same for the whole arena. Nothing here insists that a stored length is right
or that operands exist: `Grammar` is the plain data, and `validate` is the test
for the arena order.

A grammar without a root derives the empty text. One with a root derives at
least one symbol.
-/

namespace RunGrammar

/-- A rule with the length of its expansion. -/
structure SizedRule where
  rule : Rule
  length : Nat := 1
deriving DecidableEq, Repr, Inhabited

/-- The number of terminals, the rules in creation order, and the start symbol if there is one. -/
structure Grammar where
  terminals : Nat
  rules : Array SizedRule := #[]
  root : Option Symbol := none
deriving DecidableEq, Repr

namespace Grammar

/-- The grammar over bytes that derives nothing. -/
instance : Inhabited Grammar := ⟨{ terminals := byteAlphabet }⟩

/-- The number of rules. -/
def size (g : Grammar) : Nat := g.rules.size

def isEmpty (g : Grammar) : Bool := g.root.isNone

/-- The rules without their lengths, in creation order. -/
def bareRules (g : Grammar) : List Rule := g.rules.toList.map (·.rule)

/-- The number of blocks among the rules. -/
def blocks (g : Grammar) : Nat := g.rules.countP (·.rule.isBlock)

/-- The symbol that the next rule will have. It wraps around where the ids end. -/
def nextId (g : Grammar) : Symbol := .ofNat (g.terminals + g.size)

def isTerminal (g : Grammar) (v : Symbol) : Bool := v.toNat < g.terminals

/-- The stored rule of a symbol; terminals and unknown symbols have none. -/
def entry? (g : Grammar) (v : Symbol) : Option SizedRule :=
  if g.isTerminal v then none else g.rules[v.toNat - g.terminals]?

/-- The rule of a symbol; terminals and unknown symbols have none. -/
def rule? (g : Grammar) (v : Symbol) : Option Rule := (g.entry? v).map (·.rule)

def isBlock (g : Grammar) (v : Symbol) : Bool := (g.rule? v).any (·.isBlock)

/-- The recorded length of a symbol. A terminal has length one, an unknown symbol length zero. -/
def length (g : Grammar) (v : Symbol) : Nat :=
  if g.isTerminal v then 1 else (g.entry? v).elim 0 (·.length)

/-- The recorded length of the derived text. -/
def textLength (g : Grammar) : Nat := g.root.elim 0 g.length

/-- The length of a rule, given the lengths recorded for its operands. -/
def ruleLength (g : Grammar) : Rule → Nat
  | .pair a b => min (g.length a + g.length b) lengthCap
  | .block a n => min (g.length a * n.toNat) lengthCap

/-- Whether this many terminals and rules have ids of their own. -/
def fitsIdSpace (terminals rules : Nat) : Bool := terminals + rules ≤ idSpace

/-- Fails unless `additional` more rules still get ids of their own. The number of rules
reported does not go past the largest word. -/
def reserve (g : Grammar) (additional : Nat) : Except Failure Unit :=
  let wanted := min (g.size + additional) lengthCap
  if fitsIdSpace g.terminals wanted then .ok ()
  else .error (.idSpaceExhausted g.terminals wanted)

/-- Appends a rule under the symbol `nextId`. -/
def push (g : Grammar) (r : Rule) : Grammar :=
  { g with rules := g.rules.push ⟨r, g.ruleLength r⟩ }

def pushAll (g : Grammar) (rs : List Rule) : Grammar := rs.foldl push g

/-- Appends a rule without regard to its operands; its length counts as one until it is computed. -/
def addRule (g : Grammar) (r : Rule) : Grammar := { g with rules := g.rules.push ⟨r, 1⟩ }

/-- Puts another rule in the place of rule `k`. The recorded length stays. -/
def setRule (g : Grammar) (k : Nat) (r : Rule) : Grammar :=
  { g with rules := g.rules.modify k fun entry => { entry with rule := r } }

/-- Records a length for rule `k`. -/
def setLength (g : Grammar) (k n : Nat) : Grammar :=
  { g with rules := g.rules.modify k fun entry => { entry with length := n } }

/-- Recomputes the length of rule `k` from what is recorded for its operands. -/
def refreshLength (g : Grammar) (k : Nat) : Grammar :=
  match g.rules[k]? with
  | none => g
  | some entry => { g with rules := g.rules.setIfInBounds k ⟨entry.rule, g.ruleLength entry.rule⟩ }

/-- Recomputes every length in one forward pass. -/
def computeLengths (g : Grammar) : Grammar :=
  (List.range g.size).foldl refreshLength g

/-- The operands of the rule with this id come before it, and a block has at least two copies. -/
def checkRule (id : Nat) (r : Rule) : Except Failure Unit := do
  if id ≤ r.maxOperand.toNat then
    throw (.malformed (.laterOperand id r.maxOperand))
  match r with
  | .pair .. => pure ()
  | .block _ n => if n < 2 then throw (.malformed (.shortBlock id n))

/-- The root, if there is one, is a terminal or the symbol of a rule. -/
def checkRoot (g : Grammar) : Except Failure Unit :=
  match g.root with
  | none => .ok ()
  | some root =>
    if root.toNat < g.terminals + g.size then .ok ()
    else .error (.malformed (.unknownRoot root))

/-- Checks the rules in creation order and then the root; the first fault found is reported. -/
def validate (g : Grammar) : Except Failure Unit := do
  g.rules.toList.zipIdx.forM fun (entry, k) => checkRule (g.terminals + k) entry.rule
  g.checkRoot

/-- Fails when the rules of a list do not all get ids. -/
def checkIdSpace (terminals rules : Nat) : Except Failure Unit :=
  if fitsIdSpace terminals rules then .ok ()
  else .error (.malformed (.idRange terminals rules))

/-- The grammar with these rules, in this order, if they are sound. -/
def ofRules (terminals : Nat) (rules : List Rule) (root : Option Symbol) :
    Except Failure Grammar := do
  checkIdSpace terminals rules.length
  let g : Grammar := { terminals, rules := (rules.map fun r => ⟨r, 1⟩).toArray, root }
  g.validate
  return g.computeLengths

@[simp] theorem size_push (g : Grammar) (r : Rule) : (g.push r).size = g.size + 1 := by
  simp [size, push]

@[simp] theorem terminals_push (g : Grammar) (r : Rule) : (g.push r).terminals = g.terminals := rfl

@[simp] theorem root_push (g : Grammar) (r : Rule) : (g.push r).root = g.root := rfl

@[simp] theorem bareRules_push (g : Grammar) (r : Rule) :
    (g.push r).bareRules = g.bareRules ++ [r] := by
  simp [bareRules, push]

theorem nextId_toNat (g : Grammar) (h : g.terminals + g.size < idSpace) :
    g.nextId.toNat = g.terminals + g.size := by
  rw [nextId, UInt32.toNat_ofNat']
  exact Nat.mod_eq_of_lt h

end Grammar

end RunGrammar
