import Mathlib
import RunGrammar.Compression.Chunked
import RunGrammar.Proofs.Compression.Pieces
import RunGrammar.Proofs.Text.Chunks

/-!
# Scans of chunks join up

`Spans` relates the spans that a scan has found to the pieces of the positions
that it answers for. Writing these positions leaves one symbol for each piece.

Where a scan of one chunk ends, the next one goes on. `Scanner` says what a way
of scanning has to guarantee for this: the place from which a chunk has to
answer is determined by the positions before the chunk, and reading on from
there up to the end of the chunk gives this place for the next chunk. By
induction over the chunks all pieces of the text are then found once.
-/

namespace RunGrammar

/-- The symbol that a piece leaves, given the symbols of rules. -/
def Piece.leave (symbolOf : Rule → Symbol) : Piece → Symbol
  | kept c => c
  | folded r => symbolOf r

namespace Chunked

/-- The positions from `first` up to `last` fall into pieces, and the spans are the folded ones. -/
inductive Spans (ruleOf : Span → Rule) (text : Text) :
    (first : Nat) → List Span → List Piece → (last : Nat) → Prop where
  | nil (p : Nat) : Spans ruleOf text p [] [] p
  | kept {p last : Nat} {c : Symbol} {spans : List Span} {pieces : List Piece}
      (here : text[p]? = some c) (rest : Spans ruleOf text (p + 1) spans pieces last) :
      Spans ruleOf text p spans (.kept c :: pieces) last
  | folded {p length last : Nat} {spans : List Span} {pieces : List Piece}
      (rest : Spans ruleOf text (p + length) spans pieces last) :
      Spans ruleOf text p (⟨p, length⟩ :: spans) (.folded (ruleOf ⟨p, length⟩) :: pieces) last

variable {ruleOf : Span → Rule} {text : Text} {first last : Nat} {spans : List Span}
variable {pieces : List Piece}

theorem Spans.le (h : Spans ruleOf text first spans pieces last) : first ≤ last := by
  induction h with
  | nil => exact Nat.le_refl _
  | kept _ _ ih => omega
  | folded _ ih => omega

/-- The spans are among the positions of their scan. -/
theorem Spans.inside (h : Spans ruleOf text first spans pieces last) :
    ∀ s ∈ spans, first ≤ s.start ∧ s.start + s.length ≤ last := by
  induction h with
  | nil => simp
  | kept _ _ ih => exact fun s hs => ⟨Nat.le_of_succ_le (ih s hs).1, (ih s hs).2⟩
  | folded rest ih =>
      have reached := rest.le
      intro s hs
      obtain rfl | later := List.mem_cons.mp hs
      · exact ⟨Nat.le_refl _, reached⟩
      · exact ⟨Nat.le_of_add_right_le (ih s later).1, (ih s later).2⟩

theorem Spans.map_ruleOf (h : Spans ruleOf text first spans pieces last) :
    spans.map ruleOf = pieces.filterMap Piece.rule? := by
  induction h with
  | nil => rfl
  | kept _ _ ih => rw [List.filterMap_cons_none rfl, ih]
  | @folded p length _ _ _ _ ih =>
      have found : Piece.rule? (.folded (ruleOf ⟨p, length⟩)) = some (ruleOf ⟨p, length⟩) := rfl
      rw [List.filterMap_cons_some found, List.map_cons, ih]

/-- One step of writing: what was kept before a span, and the symbol of the span. -/
def writeSpan (text : Array Symbol) (symbolOf : Span → Symbol) (state : Nat × Array Symbol)
    (s : Span) : Nat × Array Symbol :=
  (s.start + s.length, (state.2 ++ text.extract state.1 s.start).push (symbolOf s))

theorem write_eq (text : Array Symbol) (symbolOf : Span → Symbol) (scan : Scan) :
    scan.write text symbolOf =
      (scan.found.toList.foldl (writeSpan text symbolOf) (scan.first, #[])).2 ++
        text.extract (scan.found.toList.foldl (writeSpan text symbolOf) (scan.first, #[])).1
          scan.last := by
  rw [Scan.write, ← Array.foldl_toList]
  rfl

/-- Symbols that are kept are written with the next span, or at the end. -/
theorem Spans.foldl_writeSpan (h : Spans ruleOf text first spans pieces last)
    (symbolOf : Rule → Symbol) {p : Nat} (pending : p ≤ first) (out : Array Symbol) :
    let state := spans.foldl (writeSpan text.toArray fun s => symbolOf (ruleOf s)) (p, out)
    (state.2 ++ text.toArray.extract state.1 last).toList =
      out.toList ++ (text.drop p).take (first - p) ++ pieces.map (Piece.leave symbolOf) := by
  induction h generalizing p out with
  | nil first => simp
  | @kept first last c spans pieces here rest ih =>
      have later := ih (Nat.le_succ_of_le pending) out
      have one : (text.drop p).take (first + 1 - p) = (text.drop p).take (first - p) ++ [c] := by
        have next : (text.drop p)[first - p]? = some c := by
          rw [List.getElem?_drop, Nat.add_sub_cancel' pending, here]
        rw [Nat.succ_sub pending, List.take_add_one, next]
        rfl
      simp only at later ⊢
      rw [later, one]
      simp [Piece.leave]
  | @folded first length last spans pieces rest ih =>
      have later := ih (Nat.le_refl _)
        ((out ++ text.toArray.extract p first).push (symbolOf (ruleOf ⟨first, length⟩)))
      simp only [List.foldl_cons] at later ⊢
      change (_ : List Symbol) = _ at later
      rw [writeSpan]
      simp only
      rw [later]
      simp [Piece.leave]

/-- The pieces of the positions that a scan answers for. -/
def Scan.Shows (ruleOf : Span → Rule) (text : Text) (scan : Scan) (pieces : List Piece) : Prop :=
  Spans ruleOf text scan.first scan.found.toList pieces scan.last

/-- A scan writes one symbol for each of its pieces. -/
theorem Scan.Shows.write {scan : Scan} (h : scan.Shows ruleOf text pieces)
    (symbolOf : Rule → Symbol) :
    (scan.write text.toArray fun s => symbolOf (ruleOf s)).toList =
      pieces.map (Piece.leave symbolOf) := by
  have written := h.foldl_writeSpan symbolOf (Nat.le_refl _) #[]
  simp only [Nat.sub_self, List.take_zero, List.append_nil, List.nil_append] at written
  rw [write_eq, written]

/-! ### From chunk to chunk -/

/-- The scan answers for the positions from `first` up to, but not including, `next`. If there are
none, its range is empty and may be anywhere. -/
inductive Scan.Covers (scan : Scan) (first : Nat) : (next : Nat) → Prop where
  | nothing (empty : scan.first = scan.last) : Covers scan first first
  | range {next : Nat} (nonempty : first < next) (from' : scan.first = first)
      (upTo : scan.last = next) : Covers scan first next

/-- A way of scanning that finds the pieces of the text, as `read` gives them from a position on,
and the spans that are to be replaced, as `listed` gives them. `At start first` says that reading
goes on at `first` when the positions before `start` are done. -/
structure Scanner (ruleOf : Span → Rule) (text : Text) (scan : Chunk → Scan)
    (At : (start first : Nat) → Prop) (read : Nat → List Piece) (listed : Nat → List Span) :
    Prop where
  chunk : ∀ start middle first, start < middle → middle ≤ text.length → At start first →
    ∃ pieces next, At middle next ∧ read first = pieces ++ read next ∧
      (scan ⟨start, middle⟩).Shows ruleOf text pieces ∧
      (scan ⟨start, middle⟩).Covers first next ∧
      listed first = (scan ⟨start, middle⟩).found.toList ++ listed next
  done : ∀ first, At text.length first →
    first = text.length ∧ read first = [] ∧ listed first = []

/-- The scans of all chunks show all pieces. -/
theorem Scanner.scans {scan : Chunk → Scan} {At : Nat → Nat → Prop} {read : Nat → List Piece}
    {listed : Nat → List Span} (scanner : Scanner ruleOf text scan At read listed)
    {start first : Nat} {chunks : List Chunk}
    (tile : Chunk.Tile start text.length chunks) (here : At start first) :
    ∃ parts, List.Forall₂ (Scan.Shows ruleOf text) (chunks.map scan) parts ∧
      parts.flatten = read first := by
  induction chunks generalizing start first with
  | nil =>
      cases tile with
      | nil => exact ⟨[], .nil, (scanner.done first here).2.1.symm⟩
  | cons chunk rest ih =>
      cases tile with
      | cons nonempty tile =>
          obtain ⟨pieces, next, there, split, shown, _⟩ :=
            scanner.chunk _ _ first nonempty tile.le here
          obtain ⟨parts, all, joined⟩ := ih tile there
          exact ⟨pieces :: parts, .cons shown all, by rw [List.flatten_cons, joined, split]⟩

variable {scans : List Scan} {parts : List (List Piece)}

theorem flatMap_found (shown : List.Forall₂ (Scan.Shows ruleOf text) scans parts) :
    (scans.flatMap fun scan => scan.found.toList.map ruleOf) =
      parts.flatten.filterMap Piece.rule? := by
  induction shown with
  | nil => rfl
  | cons first _ ih =>
      rw [List.flatMap_cons, List.flatten_cons, List.filterMap_append, ih, first.map_ruleOf]

theorem flatMap_write (shown : List.Forall₂ (Scan.Shows ruleOf text) scans parts)
    (symbolOf : Rule → Symbol) :
    (scans.flatMap fun scan =>
      (scan.write text.toArray fun s => symbolOf (ruleOf s)).toList) =
        parts.flatten.map (Piece.leave symbolOf) := by
  induction shown with
  | nil => rfl
  | cons first _ ih =>
      rw [List.flatMap_cons, List.flatten_cons, List.map_append, ih, first.write]

end Chunked

end RunGrammar
