import RunGrammar.Grammar.Basic
import RunGrammar.Text.Storage

/-!
# What a symbol stands for

`expand` and `height` say what a grammar means, without lengths, stacks or
tables: they recurse through the derivation tree of a symbol. The recursion is
on the symbol itself and enters an operand only if it is smaller, so both are
total on any grammar. On a sound grammar the guard always holds, since operands
precede their rules; elsewhere the two functions promise nothing.

`derivedText` is the running counterpart of `expand`. It follows operands
wherever they point, down to a depth that no acyclic chain of rules exceeds.
`derivedText?` is the same text in memory, if there is room for as many symbols
as the recorded length says.
-/

namespace RunGrammar.Grammar

/-- The text that a symbol stands for. -/
def expand (g : Grammar) (v : Symbol) : Text :=
  match g.rule? v with
  | none => [v]
  | some (.pair a b) =>
    (if a < v then g.expand a else []) ++ (if b < v then g.expand b else [])
  | some (.block a n) =>
    (List.replicate n.toNat (if a < v then g.expand a else [])).flatten
termination_by v.toNat
decreasing_by all_goals simpa [UInt32.lt_iff_toNat_lt] using ‹_›

/-- The height of the derivation tree of a symbol. -/
def height (g : Grammar) (v : Symbol) : Nat :=
  match g.rule? v with
  | none => 0
  | some (.pair a b) =>
    1 + max (if a < v then g.height a else 0) (if b < v then g.height b else 0)
  | some (.block a _) => 1 + if a < v then g.height a else 0
termination_by v.toNat
decreasing_by all_goals simpa [UInt32.lt_iff_toNat_lt] using ‹_›

/-- Appends to `out` what a symbol stands for, entering at most `depth` nested rules. A block
contributes at least one copy. -/
def appendExpansion (g : Grammar) :
    (depth : Nat) → (v : Symbol) → (out : Array Symbol) → Array Symbol
  | 0, _, out => out
  | depth + 1, v, out =>
    match g.rule? v with
    | none => out.push v
    | some (.pair a b) => g.appendExpansion depth b (g.appendExpansion depth a out)
    | some (.block a n) => (max n.toNat 1).repeat (g.appendExpansion depth a) out

/-- The whole text, which is empty when there is no root. -/
def derivedText (g : Grammar) : Text :=
  g.root.elim [] fun root => (g.appendExpansion (g.size + 1) root #[]).toList

/-- The whole text in memory; `none` if there is no room for it. -/
def derivedText? (g : Grammar) : Option Text := do
  let out ← Storage.withRoom g.textLength
  out.write g.derivedText

end RunGrammar.Grammar
