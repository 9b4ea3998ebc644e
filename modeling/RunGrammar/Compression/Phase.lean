import RunGrammar.Grammar.Basic
import RunGrammar.Compression.Event

/-!
# The workspace of a compression

A compression shortens a text while it builds a grammar, and each way of doing
so has tables of its own. A phase is an action on this workspace that may fail;
the workspace as it was at that point is part of a failure, too.
-/

namespace RunGrammar

/-- The text that is left, the grammar so far, what has been reported, oldest first, and the tables
that belong to the way of compressing. -/
structure Workspace (σ : Type) where
  text : Text
  grammar : Grammar
  tables : σ
  events : List Event := []

/-- An action on the workspace. -/
abbrev Phase (σ : Type) := EStateM Failure (Workspace σ)

namespace Phase

variable {σ : Type}

/-- Performs a test of the workspace that may fail. -/
def check {α : Type} (test : Workspace σ → Except Failure α) : Phase σ α := fun w =>
  match test w with
  | .ok a => .ok a w
  | .error e => .error e w

/-- Fails unless this many more rules still get ids. -/
def reserve (additional : Nat) : Phase σ Unit := check fun w => w.grammar.reserve additional

/-- Appends a rule and returns its symbol. -/
def create (r : Rule) : Phase σ Symbol := fun w =>
  .ok w.grammar.nextId { w with grammar := w.grammar.push r }

def report (e : Event) : Phase σ Unit := modify fun w => { w with events := w.events ++ [e] }

def textLength : Phase σ Nat := return (← get).text.length

end Phase

end RunGrammar
