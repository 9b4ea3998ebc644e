import RunGrammar.Alphabet
import RunGrammar.Compression.Piece
import RunGrammar.Compression.Rounds

/-!
# Compression on a dense alphabet

The text is dense throughout, and a mapping leads from its symbols to those of
the grammar. A phase first collects where the text is to be replaced and by
which rule, in dense symbols, leaving a placeholder at each of these positions.
Sorted, the occurrences of one rule stand together. Each group then becomes one
rule of the grammar and one new dense symbol behind the others, which is written
at all positions of the group. Last, the alphabet is made dense again.

The rules of a phase are created in ascending order. Since the mapping is
ascending, that is their order in symbols of the grammar, too.
-/

namespace RunGrammar.DenseAlphabet

/-- A position that a rule is to replace; the rule is in dense symbols. -/
structure Occurrence where
  rule : Rule
  position : Nat
deriving DecidableEq, Repr

/-- The occurrences among the pieces of a text. The position is that of the piece. -/
def occurrences (pieces : List Piece) : List Occurrence :=
  pieces.zipIdx.filterMap fun (piece, position) => piece.rule?.map (⟨·, position⟩)

/-- The occurrences of each rule, in ascending order of the rules. -/
def groups (found : List Occurrence) : List (List Occurrence) :=
  (found.mergeSort fun x y => x.rule.le y.rule).splitBy fun x y => x.rule == y.rule

/-- A grammar, a mapping and a text that are being extended by the groups of a phase. -/
structure Draft where
  grammar : Grammar
  mapping : Array Symbol
  text : Array Symbol

/-- Creates the rule of a group and writes its new dense symbol at every occurrence. -/
def Draft.enrol : Draft → List Occurrence → Draft
  | d, [] => d
  | ⟨grammar, mapping, text⟩, x :: rest =>
    let fresh : Symbol := .ofNat mapping.size
    let id := grammar.nextId
    { grammar := grammar.push (x.rule.rename (Alphabet.letter mapping))
      mapping := mapping.push id
      text := (x :: rest).foldl (fun text y => text.setIfInBounds y.position fresh) text }

/-- The draft in which every piece of the text is one symbol, a placeholder where it is folded. -/
def Draft.start (grammar : Grammar) (mapping : Array Symbol) (pieces : List Piece) : Draft :=
  ⟨grammar, mapping, (pieces.map Piece.first).toArray⟩

/-- Replaces the folded pieces of the text and counts them. All ids are reserved before the first
rule is created, and the text stays as it is until then; `InPlace.replaceDense` writes the
placeholders first. -/
def replace (pieces : List Piece) : Phase (Array Symbol) Nat := do
  let found := occurrences pieces
  if found.isEmpty then return 0
  let grouped := groups found
  Phase.reserve grouped.length
  modify fun w =>
    let draft := grouped.foldl Draft.enrol (.start w.grammar w.tables pieces)
    let dense := Alphabet.prune ⟨draft.text.toList, draft.mapping⟩
    { w with text := dense.text, tables := dense.mapping, grammar := draft.grammar }
  return found.length

def replaceRuns : Phase (Array Symbol) Nat := do replace (← get).text.runPieces

def replacePairs : Phase (Array Symbol) Nat := do
  let text := (← get).text
  replace ((Partition.ofText text).pairPieces text)

def prepare (alphabetSize : Nat) : Phase (Array Symbol) Unit := do
  let dense ← Phase.check fun w => Alphabet.replaceLetters w.text alphabetSize
  modify fun w => { w with text := dense.text, tables := dense.mapping }

def method : Method (Array Symbol) where
  name := "fast"
  prepare := prepare
  replaceRuns := replaceRuns
  replacePairs := replacePairs
  restore mapping text := text.map (Alphabet.letter mapping)

end RunGrammar.DenseAlphabet
