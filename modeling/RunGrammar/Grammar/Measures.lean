import RunGrammar.Grammar.Basic

/-!
# Measures of a grammar

The numbers by which a compressed text is reported. The heights of all symbols
are found in one pass over the arena: when a rule is reached, the heights of its
operands are in the table already. The ratio compares the size of the grammar,
two symbols for each rule, with the length of the text.
-/

namespace RunGrammar

structure Measures where
  textLength : Nat
  rules : Nat
  blocks : Nat
  pairs : Nat
  /-- The height of the derivation tree of the root, or zero without a root. -/
  depth : Nat
deriving DecidableEq, Repr

namespace Grammar

/-- The height of a symbol, given the heights of the rules that come first. -/
def tableHeight (g : Grammar) (heights : Array Nat) (v : Symbol) : Nat :=
  if g.isTerminal v then 0 else heights.getD (v.toNat - g.terminals) 0

/-- The height of a rule, given the heights of the rules that come first. -/
def tableRuleHeight (g : Grammar) (heights : Array Nat) : Rule → Nat
  | .pair a b => 1 + max (g.tableHeight heights a) (g.tableHeight heights b)
  | .block a _ => 1 + g.tableHeight heights a

/-- The heights of all rules, in creation order. -/
def heights (g : Grammar) : Array Nat :=
  g.rules.foldl (fun table entry => table.push (g.tableRuleHeight table entry.rule)) #[]

def measures (g : Grammar) : Measures where
  textLength := g.textLength
  rules := g.size
  blocks := g.blocks
  pairs := g.size - g.blocks
  depth := g.root.elim 0 (g.tableHeight g.heights)

end Grammar

/-- Twice the number of rules in percent of the text length; smaller is better. -/
def Measures.ratio (m : Measures) : Float :=
  if m.textLength = 0 then 0
  else (UInt64.ofNat m.rules).toFloat * 2 / (UInt64.ofNat m.textLength).toFloat * 100

end RunGrammar
