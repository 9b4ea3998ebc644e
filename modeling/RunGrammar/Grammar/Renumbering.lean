import RunGrammar.Grammar.Basic

/-!
# Grammars from rules in any order

Rules may be listed in an order in which operands come later than the rules that
use them. `ofUnordered` puts them into arena order again: it visits the rules
depth first and numbers each one when its operands are finished, the left
operand first. Rules are visited whether or not the root needs them.

When a rule is opened, its operands are looked at before any of them is entered,
the right one first: one that is not defined, or that is still open and so
closes a cycle, ends the search. An operand that was fresh when it was looked at
and was finished meanwhile is simply passed over.

Each nested visit opens one more rule, so the search is never nested more deeply
than there are rules. `Search.walk` is the same search with a stack and no nesting.
-/

namespace RunGrammar.Grammar

/-- How far the search is with a rule. -/
inductive Mark where
  | fresh
  | opened
  | finished
deriving DecidableEq, Repr, Inhabited

/-- The marks of all rules, and the finished ones in the order in which they were finished. -/
structure Search where
  marks : Array Mark
  order : Array Nat := #[]

namespace Search

def markOf (s : Search) (k : Nat) : Mark := s.marks.getD k .finished

def setMark (s : Search) (k : Nat) (m : Mark) : Search :=
  { s with marks := s.marks.setIfInBounds k m }

def finish : Search → (k : Nat) → Search
  | ⟨marks, order⟩, k => ⟨marks.setIfInBounds k .finished, order.push k⟩

end Search

/-- The position of a symbol's rule, `none` for terminals; an unknown symbol is a failure. -/
def ruleIndex (terminals size : Nat) (v : Symbol) : Except Failure (Option Nat) :=
  if v.toNat < terminals then .ok none
  else if v.toNat - terminals < size then .ok (some (v.toNat - terminals))
  else .error (.malformed (.undefinedSymbol v))

/-- The operands of a rule in the order in which they are looked at. -/
def lookedAt : Rule → Except Failure (List Symbol)
  | .pair a b => .ok [b, a]
  | .block a n => if n < 2 then .error (.malformed (.shortLooseBlock n)) else .ok [a]

/-- Looks at the operands of an opened rule. The answer lists the fresh ones, last one first. -/
def freshOperands (terminals size : Nat) (s : Search) :
    List Symbol → (fresh : List Nat) → Except Failure (List Nat)
  | [], fresh => .ok fresh
  | v :: rest, fresh => do
    match ← ruleIndex terminals size v with
    | none => freshOperands terminals size s rest fresh
    | some k =>
      match s.markOf k with
      | .fresh => freshOperands terminals size s rest (k :: fresh)
      | .opened => throw (.malformed (.cycle v))
      | .finished => freshOperands terminals size s rest fresh

/-- Visits rule `k` and everything below it, entering at most `depth` nested rules. -/
def visit (terminals : Nat) (rules : Array Rule) :
    (depth : Nat) → (s : Search) → (k : Nat) → Except Failure Search
  | 0, s, _ => .ok s
  | depth + 1, s, k =>
    match rules[k]?, s.markOf k with
    | none, _ | _, .finished => .ok s
    | some r, _ => do
      let opened := s.setMark k .opened
      let operands ← lookedAt r
      let fresh ← freshOperands terminals rules.size opened operands []
      let below ← fresh.foldlM (visit terminals rules depth) opened
      return below.finish k

/-- All rules in an order in which operands come first. -/
def creationOrder (terminals : Nat) (rules : Array Rule) : Except Failure (Array Nat) := do
  let start : Search := { marks := Array.replicate rules.size .fresh }
  let done ← (List.range rules.size).foldlM (visit terminals rules (rules.size + 1)) start
  return done.order

/-- The new symbol of each rule when the rules are created in this order. -/
def newIds (terminals size : Nat) (order : Array Nat) : Array Symbol :=
  order.toList.zipIdx.foldl
    (fun ids (k, position) => ids.setIfInBounds k (.ofNat (terminals + position)))
    (Array.replicate size 0)

/-- Applies a renumbering of the rules to a symbol. -/
def renumber (terminals : Nat) (ids : Array Symbol) (v : Symbol) : Symbol :=
  if v.toNat < terminals then v else ids.getD (v.toNat - terminals) v

/-- The grammar with these rules in any order, if it is sound. Rule `k` of the list is referred to
as `terminals + k` by the operands and by the root. -/
def ofUnordered (terminals : Nat) (rules : List Rule) (root : Option Symbol) :
    Except Failure Grammar := do
  let arena := rules.toArray
  checkIdSpace terminals arena.size
  let order ← creationOrder terminals arena
  let rename := renumber terminals (newIds terminals arena.size order)
  if let some v := root then
    let _ ← ruleIndex terminals arena.size v
  let ordered := order.toList.filterMap fun k => arena[k]?.map (Rule.rename rename)
  let g : Grammar := { pushAll { terminals } ordered with root := root.map rename }
  g.validate
  return g

end RunGrammar.Grammar
