import RunGrammar.Compression.Phase

/-!
# Rounds of compression

A round replaces all runs and then, if more than one symbol is left, all eligible
pairs. Rounds are repeated until at most one symbol is left, which becomes the
root. A round that does not shorten the text ends the compression with a
failure, so the number of rounds is bounded by the length of the text.

A `Method` is one way of carrying out the phases. It may bring the text into a
form of its own at the start, and then has to say how to get back.
-/

namespace RunGrammar

/-- A way of compressing a text. -/
structure Method (σ : Type) where
  name : String
  /-- Checks the text against the alphabet size and brings it into the form for the phases. -/
  prepare : (alphabetSize : Nat) → Phase σ Unit
  /-- Replaces every maximal run of two or more symbols and counts them. -/
  replaceRuns : Phase σ Nat
  /-- Replaces every eligible pair and counts them. -/
  replacePairs : Phase σ Nat
  /-- Turns a text in the form for the phases into symbols of the grammar. -/
  restore : σ → Text → Text

namespace Method

variable {σ : Type} (m : Method σ)

/-- One round at a level. -/
def round (level : Nat) : Phase σ Unit := do
  let before ← Phase.textLength
  let runs ← m.replaceRuns
  let between ← Phase.textLength
  Phase.report (.runsReplaced level runs before between)
  if 1 < between then
    let pairs ← m.replacePairs
    let after ← Phase.textLength
    Phase.report (.pairsReplaced level pairs between after)

/-- Repeats rounds from a level on until at most one symbol is left. Returns the next level. -/
def rounds (level : Nat) : Phase σ Nat := fun w =>
  if w.text.length ≤ 1 then .ok level w
  else match m.round level w with
    | .error e w' => .error e w'
    | .ok _ w' =>
      if w'.text.length < w.text.length then rounds (level + 1) w'
      else (do
        Phase.report (.stalled level w.text.length)
        throw (.noProgress level w.text.length) : Phase σ Nat) w'
termination_by w => w.text.length

/-- Takes the last symbol as the root and reports the grammar. -/
def finish (levels : Nat) : Phase σ Grammar := do
  modify fun w =>
    let text := m.restore w.tables w.text
    { w with text, grammar := { w.grammar with root := text.head? } }
  let g := (← get).grammar
  Phase.report (.finished m.name g.size g.blocks levels g.textLength)
  return g

/-- Compresses the text of the workspace into its grammar. -/
def run (alphabetSize : Nat) : Phase σ Grammar := do
  Phase.reserve 0
  m.prepare alphabetSize
  let levels ← m.rounds 0
  m.finish levels

/-- Compresses a text over `alphabetSize` terminals, starting with these tables. The outcome holds
the grammar or the failure, and the workspace that is left. -/
def compress (tables : σ) (alphabetSize : Nat) (text : Text) :
    EStateM.Result Failure (Workspace σ) Grammar :=
  m.run alphabetSize { text, tables, grammar := { terminals := alphabetSize } }

end Method

end RunGrammar
