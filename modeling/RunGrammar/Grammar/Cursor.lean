import RunGrammar.Grammar.Basic

/-!
# Reading a text symbol by symbol

A cursor walks through the derived text without ever holding more of it than one
branch of the derivation tree. Its state is a stack of what is still to come:
symbols to be entered, and blocks with the number of copies that are left.

`advance` performs one step on the top of the stack and says whether a symbol
came out. `next` repeats it up to the next symbol. Between two symbols of the
text every rule is entered at most once, in two steps for a block, so the bound
on the number of steps is reached only where the rules run in a circle, and then
the cursor stops.
-/

namespace RunGrammar

/-- Something that a cursor has still to read. -/
inductive Frame where
  | symbol (v : Symbol)
  /-- `left` copies of a symbol; none at all counts as one. -/
  | copies (v : Symbol) (left : UInt32)
deriving DecidableEq, Repr

/-- What is still to be read, next part first. -/
abbrev Cursor := List Frame

namespace Cursor

/-- The cursor before the first symbol of the text. -/
def start (g : Grammar) : Cursor := g.root.toList.map .symbol

/-- The outcome of one step: a symbol of the text may come out, and the rest remains. -/
structure Progress where
  output : Option Symbol
  rest : Cursor
deriving DecidableEq, Repr

/-- Takes the top of the stack apart. Nothing is left to do on an empty stack. -/
def advance (g : Grammar) : Cursor → Option Progress
  | [] => none
  | .symbol v :: rest =>
    match g.rule? v with
    | none => some ⟨some v, rest⟩
    | some (.pair a b) => some ⟨none, .symbol a :: .symbol b :: rest⟩
    | some (.block a n) => some ⟨none, .copies a n :: rest⟩
  | .copies v left :: rest =>
    some ⟨none, .symbol v :: if 1 < left then .copies v (left - 1) :: rest else rest⟩

/-- The next symbol within this many steps. -/
def nextWithin (g : Grammar) : (steps : Nat) → Cursor → Option (Symbol × Cursor)
  | 0, _ => none
  | steps + 1, stack =>
    match advance g stack with
    | none => none
    | some ⟨some v, rest⟩ => some (v, rest)
    | some ⟨none, rest⟩ => nextWithin g steps rest

/-- The next symbol of the text, if there is one. -/
def next (g : Grammar) (stack : Cursor) : Option (Symbol × Cursor) :=
  nextWithin g (2 * g.size + 3) stack

/-- The cursor after `count` more symbols, or at the end of the text. -/
def skip (g : Grammar) : (count : Nat) → Cursor → Cursor
  | 0, stack => stack
  | count + 1, stack =>
    match next g stack with
    | none => []
    | some (_, rest) => skip g count rest

/-- Appends the next `count` symbols to `out`, or as many as there are. -/
def collect (g : Grammar) : (count : Nat) → Cursor → (out : Array Symbol) → Array Symbol
  | 0, _, out => out
  | count + 1, stack, out =>
    match next g stack with
    | none => out
    | some (v, rest) => collect g count rest (out.push v)

/-- The next `count` symbols, or as many as there are. -/
def take (g : Grammar) (count : Nat) (stack : Cursor) : Text :=
  (collect g count stack #[]).toList

end Cursor

end RunGrammar
