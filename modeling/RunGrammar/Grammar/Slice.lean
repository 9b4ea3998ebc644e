import RunGrammar.Grammar.Basic
import RunGrammar.Text.Storage

/-!
# Random access

`slice i n` is the part of the text from position `i` that is at most `n`
symbols long, found without expanding the rest. A range that leaves the text is
clipped, and one that starts behind it is empty.

Inside `sliceFrom` the recorded lengths of operands split a range between the
parts of a rule. A nested call either goes down to an operand with the same
range or continues with a smaller one, so a chain of nested calls enters the
same rule twice only after the range has shrunk; that bounds the chain.

`slice` and `derive` say which symbols are found. `slice?` and `derive?` also
write them to memory, and there is not always room: a slice reserves all that it
needs before the first symbol is found, an expansion starts without any.
-/

namespace RunGrammar.Grammar

/-- The `n` symbols from position `i` of the expansion of `v`, entering at most `depth` nested
rules. The range is meant to lie inside the recorded length of `v`. -/
def sliceWithin (g : Grammar) : (depth : Nat) → (i n : Nat) → (v : Symbol) → Text
  | 0, _, _, _ => []
  | depth + 1, i, n, v =>
    if n = 0 then []
    else match g.rule? v with
      | none => [v]
      | some (.pair a b) =>
        let left := g.length a
        if i < left then
          let head := min n (left - i)
          g.sliceWithin depth i head a ++ g.sliceWithin depth 0 (n - head) b
        else
          g.sliceWithin depth (i - left) n b
      | some (.block a _) =>
        let copy := g.length a
        let offset := i % copy
        let head := min n (copy - offset)
        let remaining := n - head
        let whole :=
          if remaining < copy then []
          else (List.replicate (remaining / copy) (g.sliceWithin depth 0 copy a)).flatten
        g.sliceWithin depth offset head a ++ whole ++ g.sliceWithin depth 0 (remaining % copy) a

/-- The `n` symbols from position `i` of the expansion of `v`. -/
def sliceFrom (g : Grammar) (i n : Nat) (v : Symbol) : Text :=
  g.sliceWithin ((g.size + 2) * (i + n + 1)) i n v

/-- The symbols at positions `i`, `i + 1`, … of the text, at most `n` of them. -/
def slice (g : Grammar) (i n : Nat) : Text :=
  g.root.elim [] fun root =>
    if i < g.textLength then g.sliceFrom i (min n (g.textLength - i)) root else []

/-- The expansion of one symbol, as far as its recorded length reaches. -/
def derive (g : Grammar) (v : Symbol) : Text :=
  g.sliceFrom 0 (g.length v) v

/-- How many symbols of a range lie in the text. -/
def clip (g : Grammar) (i n : Nat) : Nat := min n (g.textLength - i)

/-- A slice in memory; `none` if there is no room for it. -/
def slice? (g : Grammar) (i n : Nat) : Option Text := do
  let out ← Storage.withRoom (g.clip i n)
  out.write (g.slice i n)

/-- The expansion of one symbol in memory; `none` if there is no room for it. -/
def derive? (g : Grammar) (v : Symbol) : Option Text := do
  let out ← Storage.withRoom 0
  out.write (g.derive v)

end RunGrammar.Grammar
