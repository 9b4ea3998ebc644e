import RunGrammar.Symbol

/-!
# Runs of equal symbols

Every text falls into maximal runs in exactly one way: concatenated they give
the text back, none is empty, and neighbouring runs have different symbols.
-/

namespace RunGrammar

/-- `length` copies of one symbol in a row. -/
structure Run where
  symbol : Symbol
  length : Nat
deriving DecidableEq, Repr

/-- The text that a run stands for. -/
def Run.text (r : Run) : Text := List.replicate r.length r.symbol

/-- The maximal runs of a text, from left to right. -/
def Text.runs (text : Text) : List Run :=
  (text.splitBy (· == ·)).filterMap fun group => group.head?.map fun c => ⟨c, group.length⟩

@[simp] theorem Text.runs_nil : Text.runs [] = [] := rfl

end RunGrammar
