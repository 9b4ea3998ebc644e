import RunGrammar.Compression.Chunked
import RunGrammar.Compression.Dense
import RunGrammar.Compression.FirstSeen

/-!
# Phases in place

Where one thread does all the work, a phase overwrites the text while it reads
it: a piece is read at one position, and the symbol that it leaves is written at
another one, which is never further along. What is behind the last symbol written
is cut off when the whole text has been read.

With names in order of appearance, a phase may fail between two pieces. The front
of the text is overwritten by then, and nothing is cut off. On a dense alphabet a
phase first leaves the placeholders and cuts the text, and asks for ids only after
that. These are the texts that remain after a failure; the answers are those of
the methods that leave the text alone until they are done.
-/

namespace RunGrammar.InPlace

/-- A piece that starts at a position, and the position behind it. -/
structure Reading (position : Nat) where
  piece : Piece
  stop : Nat
  forward : position < stop

/-- A way of reading the piece that starts at a position of a text. -/
abbrev Reader := (text : Array Symbol) → (i : Fin text.size) → Reading i

/-- The run that starts here. -/
def readRun : Reader := fun text i =>
  let stop := Chunked.runEnd text text[i] text.size (i + 1)
  { piece := .ofRun ⟨text[i], stop - i⟩
    stop
    forward := Chunked.le_runEnd text text[i] text.size (i + 1) }

/-- The pair that starts here if it is eligible, and else the symbol. -/
def readPair (partition : Partition) : Reader := fun text i =>
  match text[i.val + 1]? with
  | none => ⟨.kept text[i], i + 1, Nat.lt_add_one i⟩
  | some b =>
    if partition.eligible text[i] b then
      ⟨.folded (.pair text[i] b), i + 2, Nat.lt_add_of_pos_right Nat.two_pos⟩
    else ⟨.kept text[i], i + 1, Nat.lt_add_one i⟩

/-- A text of which everything before `read` has been read, and everything before `write` has been
written. -/
structure Pass where
  text : Array Symbol
  read : Nat
  write : Nat
  behind : write ≤ read

namespace Pass

def start (text : Array Symbol) : Pass := ⟨text, 0, 0, Nat.le_refl 0⟩

/-- Writes the symbol that a piece leaves, and goes on behind the piece. -/
def put (pass : Pass) (inside : pass.read < pass.text.size) (reading : Reading pass.read)
    (v : Symbol) : Pass where
  text := pass.text.set pass.write v (Nat.lt_of_le_of_lt pass.behind inside)
  read := reading.stop
  write := pass.write + 1
  behind := Nat.lt_of_le_of_lt pass.behind reading.forward

/-- What has been written. -/
def written (pass : Pass) : Text := (pass.text.take pass.write).toList

end Pass

variable {ε τ : Type}

/-- Reads all pieces from here on. `leave` is told where the symbol that it gives will be written,
and may fail. -/
def scan (read : Reader) (leave : (position : Nat) → Piece → EStateM ε τ Symbol) (pass : Pass)
    (s : τ) : Pass × EStateM.Result ε τ Unit :=
  if inside : pass.read < pass.text.size then
    let reading := read pass.text ⟨pass.read, inside⟩
    match leave pass.write reading.piece s with
    | .error e s' => (pass, .error e s')
    | .ok v s' => scan read leave (pass.put inside reading v) s'
  else (pass, .ok () s)
termination_by pass.text.size - pass.read
decreasing_by
  simp only [Pass.put, Array.size_set]
  exact Nat.sub_lt_sub_left inside (read pass.text ⟨pass.read, inside⟩).forward

/-! ### Names in order of appearance -/

/-- A workspace whose text is elsewhere, and the number of pieces replaced so far. -/
structure Counted where
  workspace : Workspace FirstSeen.Names
  replaced : Nat

/-- The symbol that a piece leaves in the text. -/
def nameOrKeep : Piece → EStateM Failure Counted Symbol
  | .kept c, s => .ok c s
  | .folded r, s =>
    match FirstSeen.nameOf r s.workspace with
    | .error e w => .error e { s with workspace := w }
    | .ok v w => .ok v ⟨w, s.replaced + 1⟩

/-- Replaces pieces by names in order of appearance. -/
def replaceFirstSeen (isBlock : Bool) (read : Reader) : Phase FirstSeen.Names Nat := fun w =>
  let cleared := { w with tables := w.tables.clear isBlock }
  match scan read (fun _ => nameOrKeep) (.start w.text.toArray) ⟨cleared, 0⟩ with
  | (pass, .ok () s) => .ok s.replaced { s.workspace with text := pass.written }
  | (pass, .error e s) => .error e { s.workspace with text := pass.text.toList }

def firstSeen : Method FirstSeen.Names :=
  { FirstSeen.method with
    replaceRuns := replaceFirstSeen true readRun
    replacePairs := do replaceFirstSeen false (readPair (Partition.ofText (← get).text)) }

/-! ### On a dense alphabet -/

/-- Leaves the first symbol of a piece as a placeholder, and records where a rule belongs. -/
def markOrKeep (position : Nat) (piece : Piece) :
    EStateM Empty (Array DenseAlphabet.Occurrence) Symbol := fun found =>
  match piece.rule? with
  | none => .ok piece.first found
  | some r => .ok piece.first (found.push ⟨r, position⟩)

/-- Creates the rules of what was found, in ascending order, and writes their dense symbols. -/
def assign (found : List DenseAlphabet.Occurrence) : Phase (Array Symbol) Unit := do
  let grouped := DenseAlphabet.groups found
  Phase.reserve grouped.length
  modify fun w =>
    let draft := grouped.foldl DenseAlphabet.Draft.enrol ⟨w.grammar, w.tables, w.text.toArray⟩
    let dense := Alphabet.prune ⟨draft.text.toList, draft.mapping⟩
    { w with text := dense.text, tables := dense.mapping, grammar := draft.grammar }

/-- Replaces pieces by rules in ascending order. -/
def replaceDense (read : Reader) : Phase (Array Symbol) Nat := do
  let (pass, .ok () found) := scan read markOrKeep (.start (← get).text.toArray) #[]
  modify fun w => { w with text := pass.written }
  if 0 < found.size then assign found.toList
  return found.size

def dense : Method (Array Symbol) :=
  { DenseAlphabet.method with
    replaceRuns := replaceDense readRun
    replacePairs := do replaceDense (readPair (Partition.ofText (← get).text)) }

end RunGrammar.InPlace
