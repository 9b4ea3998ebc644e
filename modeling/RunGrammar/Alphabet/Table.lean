import RunGrammar.Alphabet
import RunGrammar.Text.Sharing

/-!
# Letters by tables

Which symbols occur can be marked in a table with one entry for each symbol, and
the marked entries, counted from the start, give a second table with the rank of
every letter. Neither table goes further than the largest symbol of the text.

Here a text is rewritten where it is. When that fails, the text is what it was
before. Chunks may be checked in any order, each of them has a table of its own,
and a `Schedule` decides in which way these are merged.
-/

namespace RunGrammar.Alphabet

/-- An action on a text that is rewritten where it is. -/
abbrev Rewriting := EStateM Failure Text

/-- Whether a symbol occurs, for one symbol after the other. -/
abbrev Marks := Array Bool

namespace Marks

/-- A table for the symbols below `size` without marks. -/
def blank (size : Nat) : Marks := Array.replicate size false

/-- The symbols of a text, in a table for those below `size`. -/
def ofText (size : Nat) (text : Text) : Marks :=
  text.foldl (fun marks c => marks.setIfInBounds c.toNat true) (blank size)

/-- The symbols that are marked in one of two tables of one size. -/
def merge (a b : Marks) : Marks := Array.zipWith (· || ·) a b

/-- Whether symbol `i` is marked. -/
def has (marks : Marks) (i : Nat) : Bool := marks.getD i false

/-- Gives the next place to symbol `i` if it is marked. -/
def number (marks : Marks) (found : Array Symbol × Array Symbol) (i : Nat) :
    Array Symbol × Array Symbol :=
  if marks.has i then
    (found.1.push (.ofNat i), found.2.setIfInBounds i (.ofNat found.1.size))
  else found

/-- The marked symbols in ascending order, and a table in which each of them has its place. -/
def ranks (marks : Marks) : Array Symbol × Array Symbol :=
  (List.range marks.size).foldl marks.number (#[], Array.replicate marks.size 0)

/-- Tables merged in some way: neighbours are merged in any order, and blank tables may be put
anywhere. -/
abbrev Merged (size : Nat) : List Marks → Marks → Prop := Reduction merge (blank size)

end Marks

/-- How the work on chunks is carried out. -/
structure Schedule where
  /-- The order in which the chunks are checked. -/
  order : List Chunk → List Chunk
  perm : ∀ chunks, (order chunks).Perm chunks
  /-- The table that is merged from those of the chunks. -/
  merge : (size : Nat) → List Marks → Marks
  merged : ∀ size tables, Marks.Merged size tables (merge size tables)

/-- From left to right. -/
def Schedule.sequential : Schedule where
  order chunks := chunks
  perm _ := .refl _
  merge size tables := tables.foldr Marks.merge (Marks.blank size)
  merged size tables := by
    induction tables with
    | nil => exact .nothing
    | cons marks tables ih => exact .join (.single marks) ih

/-- How many entries a table needs for the symbols of a text. -/
def tableSize (text : Text) : Nat := text.foldl (fun bound c => max bound (c.toNat + 1)) 0

/-- Takes over the answer of a test of the text. -/
def examine (test : Text → Except Failure Unit) : Rewriting Unit := fun text =>
  match test text with
  | .ok () => .ok () text
  | .error e => .error e text

/-- Replaces every symbol by its place. -/
def rewrite (places : Array Symbol) : Rewriting Unit :=
  modify fun text => text.map fun c => places.getD c.toNat c

/-- Replaces every symbol by its rank among the marked ones and returns those. -/
def rewriteByRank (marks : Marks) : Rewriting (Array Symbol) := do
  let (mapping, places) := marks.ranks
  rewrite places
  return mapping

/-- Makes a text over an alphabet of `size` symbols dense and returns its mapping. -/
def replaceByTable (size : Nat) : Rewriting (Array Symbol) := do
  examine (check · size)
  let text ← get
  rewriteByRank (Marks.ofText (tableSize text) text)

/-- Makes a text dense, with the work cut into `parts` chunks. -/
def replaceByTables (s : Schedule) (parts size : Nat) : Rewriting (Array Symbol) := do
  let text ← get
  if text.isEmpty then return #[]
  let chunks := Chunk.split text.length parts
  examine fun text => checkIn (s.order chunks) text.toArray size
  let entries := tableSize text
  let tables := chunks.map fun chunk => Marks.ofText entries (chunk.slice text.toArray)
  rewriteByRank (s.merge entries tables)

/-- Drops the entries of the mapping that the text does not use. -/
def pruneByTable (d : Dense) : Dense :=
  let (kept, places) := (Marks.ofText d.mapping.size d.text).ranks
  ⟨d.text.map fun c => places.getD c.toNat c, kept.map (letter d.mapping)⟩

end RunGrammar.Alphabet
