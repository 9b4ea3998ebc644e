import RunGrammar.Alphabet
import RunGrammar.Compression.Rounds
import RunGrammar.Partition.Basic
import RunGrammar.Text.Sharing

/-!
# Compression in chunks

The positions of the text are cut into chunks, and each chunk is scanned without
regard to the others. A run or a pair belongs to the chunk in which it starts; a
chunk that begins inside one skips its rest, which it recognises from the symbol
before the chunk. So the ranges that the scans answer for join up, and every
replacement is found once.

The rules of a phase are those of all scans, in ascending order and without
repetitions. Since new symbols are handed out in this order, the symbol of a
rule is known from the number of rules before it, and every scan can write its
part of the new text on its own. Neither the rules nor the text depend on the
number of chunks.

The chunks are scanned and written by several threads, and the results are used in
the order of the chunks. The rules are sorted by several threads, too. How this is
done is up to the thread library, of which a phase needs no more than a `Sorter`.
-/

namespace RunGrammar.Chunked

/-- A part of the text that is to be replaced by one symbol. -/
structure Span where
  start : Nat
  length : Nat
deriving DecidableEq, Repr

/-- What a chunk answers for: the positions from `first` up to, but not including, `last`, and
the spans in it that are to be replaced. -/
structure Scan where
  first : Nat
  last : Nat
  found : Array Span
deriving DecidableEq, Repr

/-- The first position from `p` on, but at most `limit`, at which `c` does not stand. -/
def runEnd (text : Array Symbol) (c : Symbol) (limit p : Nat) : Nat :=
  if p < limit then
    if text[p]? = some c then runEnd text c limit (p + 1) else p
  else p
termination_by limit - p

theorem le_runEnd (text : Array Symbol) (c : Symbol) (limit p : Nat) :
    p ≤ runEnd text c limit p := by
  fun_induction runEnd text c limit p with
  | case1 p _ _ ih => omega
  | case2 => exact Nat.le_refl _
  | case3 => exact Nat.le_refl _

/-- Where the chunk's own runs begin: behind the rest of a run that began before it. -/
def ownRuns (text : Array Symbol) (chunk : Chunk) : Nat :=
  if chunk.start = 0 then 0
  else match text[chunk.start - 1]? with
    | none => chunk.start
    | some previous => runEnd text previous chunk.stop chunk.start

/-- Collects the maximal runs that start between `p` and `stop`. The last one may end behind. -/
def collectRuns (text : Array Symbol) (stop p : Nat) (found : Array Span) : Nat × Array Span :=
  if p < stop then
    match text[p]? with
    | none => (p, found)
    | some c =>
      let next := runEnd text c text.size (p + 1)
      have : p < next := le_runEnd text c text.size (p + 1)
      collectRuns text stop next (if p + 1 < next then found.push ⟨p, next - p⟩ else found)
  else (p, found)
termination_by stop - p

/-- The runs of two or more symbols that start in a chunk. -/
def scanRuns (text : Array Symbol) (chunk : Chunk) : Scan :=
  let first := ownRuns text chunk
  let (last, found) := collectRuns text chunk.stop first #[]
  ⟨first, last, found⟩

/-- Whether an eligible pair starts at a position. -/
def pairAt (partition : Partition) (text : Array Symbol) (p : Nat) : Bool :=
  match text[p]?, text[p + 1]? with
  | some a, some b => partition.eligible a b
  | _, _ => false

/-- Collects the eligible pairs that start between `p` and `stop`. The last one may end behind. -/
def collectPairs (partition : Partition) (text : Array Symbol) (stop p : Nat)
    (found : Array Span) : Nat × Array Span :=
  if p < stop then
    if pairAt partition text p then
      collectPairs partition text stop (p + 2) (found.push ⟨p, 2⟩)
    else collectPairs partition text stop (p + 1) found
  else (p, found)
termination_by stop - p

/-- The eligible pairs that start in a chunk. -/
def scanPairs (partition : Partition) (text : Array Symbol) (chunk : Chunk) : Scan :=
  let first :=
    if chunk.start ≠ 0 ∧ pairAt partition text (chunk.start - 1) then chunk.start + 1
    else chunk.start
  let (last, found) := collectPairs partition text chunk.stop first #[]
  ⟨first, last, found⟩

/-- The rule that replaces a run. -/
def runRule (text : Array Symbol) (s : Span) : Rule :=
  .block (text.getD s.start 0) (.ofNat s.length)

/-- The rule that replaces a pair. -/
def pairRule (text : Array Symbol) (s : Span) : Rule :=
  .pair (text.getD s.start 0) (text.getD (s.start + 1) 0)

/-- The rules of all spans, ascending and without repetitions. -/
def collectRules (sorter : Sorter Rule.le) (ruleOf : Span → Rule) (scans : List Scan) :
    List Rule :=
  let sorted := sorter.sort (scans.flatMap fun scan => scan.found.toList.map ruleOf)
  (sorted.splitBy (· == ·)).filterMap List.head?

/-- The new text of the positions that a scan answers for. -/
def Scan.write (text : Array Symbol) (symbolOf : Span → Symbol) (scan : Scan) : Array Symbol :=
  let (p, out) := scan.found.foldl
    (fun (p, out) s => (s.start + s.length, (out ++ text.extract p s.start).push (symbolOf s)))
    (scan.first, #[])
  out ++ text.extract p scan.last

/-- Replaces everything that the scans found, and counts it. All ids are reserved before the first
rule is created. -/
def replace (sorter : Sorter Rule.le) (ruleOf : Span → Rule) (text : Array Symbol)
    (scans : List Scan) : Phase Unit Nat := do
  let rules := collectRules sorter ruleOf scans
  Phase.reserve rules.length
  let base := (← get).grammar.nextId
  let ordered := rules.toArray
  let symbolOf (s : Span) : Symbol :=
    base + .ofNat (frontLength (fun r => !(ruleOf s).le r) ordered)
  modify fun w => { w with
    grammar := w.grammar.pushAll rules
    text := (scans.flatMap fun scan => (scan.write text symbolOf).toList) }
  return (scans.flatMap fun scan => scan.found.toList).length

def replaceRunsBy (sorter : Sorter Rule.le) (parts : Nat) : Phase Unit Nat := do
  let text := (← get).text.toArray
  replace sorter (runRule text) text ((Chunk.split text.size parts).map (scanRuns text))

def replacePairsBy (sorter : Sorter Rule.le) (parts : Nat) : Phase Unit Nat := do
  let w ← get
  let partition := Partition.ofTextIn parts w.text
  let text := w.text.toArray
  replace sorter (pairRule text) text ((Chunk.split text.size parts).map (scanPairs partition text))

/-- The sorter of the phases below; with any other one they are the same. -/
def merging : Sorter Rule.le := .merging Rule.le_trans Rule.le_total

def replaceRuns (parts : Nat) : Phase Unit Nat := replaceRunsBy merging parts

def replacePairs (parts : Nat) : Phase Unit Nat := replacePairsBy merging parts

def prepare (parts alphabetSize : Nat) : Phase Unit Unit :=
  Phase.check fun w =>
    let text := w.text.toArray
    Alphabet.checkIn (Chunk.split text.size parts) text alphabetSize

def method (parts : Nat) : Method Unit where
  name := "parallel"
  prepare := prepare parts
  replaceRuns := replaceRuns parts
  replacePairs := replacePairs parts
  restore _ text := text

end RunGrammar.Chunked
