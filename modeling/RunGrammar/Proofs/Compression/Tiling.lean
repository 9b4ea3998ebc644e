import Mathlib
import RunGrammar.Proofs.Compression.Scanners

/-!
# The scans of chunks tile the text

However large the chunks are, the ranges that their scans answer for follow each
other without gaps, apart from ranges that are empty because a run from before
covers the whole chunk. What the scans found is, chunk after chunk, the list of all
maximal runs of two or more symbols, or of all eligible pairs, and every scan found
what is in its own range.

Which spans have to be found is said position by position (`LongRun`,
`EligiblePair`). A reading from left to right lists them, a scanner splits this list
at the chunks, and the chunks are joined by induction.
-/

namespace RunGrammar.Chunked

/-- The symbol stands at all positions of the span, and at neither of its neighbours. -/
structure MaximalRun (text : Text) (c : Symbol) (s : Span) : Prop where
  nonempty : 0 < s.length
  same : ∀ k, s.start ≤ k → k < s.start + s.length → text[k]? = some c
  before : ∀ k, k + 1 = s.start → text[k]? ≠ some c
  behind : text[s.start + s.length]? ≠ some c

/-- A maximal run of two or more symbols. -/
def LongRun (text : Text) (s : Span) : Prop := 1 < s.length ∧ ∃ c, MaximalRun text c s

/-- Two neighbours that the partition puts into a pair. -/
def EligiblePair (partition : Partition) (text : Text) (s : Span) : Prop :=
  s.length = 2 ∧ ∃ a b, text[s.start]? = some a ∧ text[s.start + 1]? = some b ∧
    partition.eligible a b = true

/-- The spans that are asked for, each of them once and from left to right. -/
structure Lists (Asked : Span → Prop) (spans : List Span) : Prop where
  mem_iff : ∀ s, s ∈ spans ↔ Asked s
  ascending : spans.Pairwise fun a b => a.start < b.start

/-- The ranges of some scans, without those that are empty. -/
def ranges (scans : List Scan) : List Chunk :=
  (scans.filter fun scan => scan.first < scan.last).map fun scan => ⟨scan.first, scan.last⟩

/-- The ranges of scans cover the positions from `first` up to `n`, one after the other, and
together the scans found these spans. -/
structure Joins (first n : Nat) (spans : List Span) (scans : List Scan) : Prop where
  found : (scans.flatMap fun scan => scan.found.toList) = spans
  consecutive : Chunk.Tile first n (ranges scans)
  inside : ∀ scan ∈ scans, ∀ s ∈ scan.found,
    scan.first ≤ s.start ∧ s.start + s.length ≤ scan.last
  forward : ∀ scan ∈ scans, scan.first ≤ scan.last

/-- The scans found the spans that are asked for, and their ranges tile the positions below `n`. -/
structure Tiling (n : Nat) (Asked : Span → Prop) (scans : List Scan) : Prop where
  lists : Lists Asked (scans.flatMap fun scan => scan.found.toList)
  /-- The ranges that are not empty follow each other. -/
  consecutive : Chunk.Tile 0 n (ranges scans)
  disjoint : (ranges scans).Pairwise fun a b => a.stop ≤ b.start
  covered : ∀ p < n, ∃ range ∈ ranges scans, range.start ≤ p ∧ p < range.stop
  /-- What a scan found is in its range. -/
  inside : ∀ scan ∈ scans, ∀ s ∈ scan.found,
    scan.first ≤ s.start ∧ s.start + s.length ≤ scan.last
  forward : ∀ scan ∈ scans, scan.first ≤ scan.last

variable {ruleOf : Span → Rule} {text : Text} {first next n p : Nat} {spans : List Span}
variable {pieces : List Piece} {scan : Scan} {scans : List Scan} {c : Symbol} {s : Span}
variable {Asked : Span → Prop}

/-! ### Listing spans -/

theorem Lists.congr {Asked' : Span → Prop} (h : Lists Asked spans)
    (same : ∀ s, Asked s ↔ Asked' s) : Lists Asked' spans where
  mem_iff s := (h.mem_iff s).trans (same s)
  ascending := h.ascending

theorem Lists.append {Asked' : Span → Prop} {spans' : List Span} (h : Lists Asked spans)
    (h' : Lists Asked' spans') (before : ∀ a b, Asked a → Asked' b → a.start < b.start) :
    Lists (fun s => Asked s ∨ Asked' s) (spans ++ spans') where
  mem_iff s := by rw [List.mem_append, h.mem_iff, h'.mem_iff]
  ascending := by
    apply List.pairwise_append.mpr
    refine ⟨h.ascending, h'.ascending, fun a ha b hb => ?_⟩
    exact before a b ((h.mem_iff a).mp ha) ((h'.mem_iff b).mp hb)

/-! ### The runs of a text -/

/-- Behind a run that is read up to its end there is another symbol. -/
theorem RunEnd.fresh (here : text[p]? = some c) (ends : RunEnd text c text.length (p + 1) next) :
    ∀ k, k + 1 = next → text[k]? ≠ text[next]? := by
  intro k last
  have later := ends.le
  rw [ends.getElem?_eq here (by omega) (by omega)]
  exact ends.getElem?_ne.symm

/-- Where another symbol stands before, reading a run up to its end gives a maximal one. -/
theorem RunEnd.maximal (here : text[p]? = some c) (fresh : ∀ k, k + 1 = p → text[k]? ≠ text[p]?)
    (ends : RunEnd text c text.length (p + 1) next) : MaximalRun text c ⟨p, next - p⟩ := by
  have later := ends.le
  have last : p + (next - p) = next := by omega
  refine ⟨Nat.sub_pos_of_lt later, ?_, ?_, ?_⟩
  · intro k atLeast before
    exact ends.getElem?_eq here atLeast (last ▸ before)
  · intro k before
    rw [← here]
    exact fresh k before
  · simp only [last]
    exact ends.getElem?_ne

/-- A maximal run is the one that is read at a position, or it starts behind that one. -/
theorem MaximalRun.eq_or_le {d : Symbol} (h : MaximalRun text d s) (here : text[p]? = some c)
    (ends : RunEnd text c text.length (p + 1) next) (atLeast : p ≤ s.start) :
    s = ⟨p, next - p⟩ ∨ next ≤ s.start := by
  have nonempty := h.nonempty
  obtain meets | behind := Nat.lt_or_ge s.start next
  · left
    have both := h.same s.start (Nat.le_refl _) (by omega)
    obtain rfl : c = d := by
      rw [ends.getElem?_eq here atLeast meets] at both
      exact Option.some.inj both
    have starts : s.start = p := by
      by_contra other
      obtain ⟨k, one⟩ : ∃ k, k + 1 = s.start := ⟨s.start - 1, by omega⟩
      exact h.before k one (ends.getElem?_eq here (by omega) (by omega))
    have stops : s.start + s.length = next := by
      obtain early | same | late := Nat.lt_trichotomy (s.start + s.length) next
      · exact absurd (ends.getElem?_eq here (by omega) early) h.behind
      · exact same
      · exact absurd (h.same next (by omega) late) ends.getElem?_ne
    cases s
    simp only [Span.mk.injEq] at starts stops ⊢
    omega
  · exact .inr behind

theorem longRun_from_iff (here : text[p]? = some c) (fresh : ∀ k, k + 1 = p → text[k]? ≠ text[p]?)
    (ends : RunEnd text c text.length (p + 1) next) :
    p ≤ s.start ∧ LongRun text s ↔
      s = ⟨p, next - p⟩ ∧ 1 < next - p ∨ next ≤ s.start ∧ LongRun text s := by
  constructor
  · rintro ⟨atLeast, long, d, whole⟩
    obtain rfl | behind := whole.eq_or_le here ends atLeast
    · exact .inl ⟨rfl, long⟩
    · exact .inr ⟨behind, long, d, whole⟩
  · rintro (⟨rfl, long⟩ | ⟨behind, whole⟩)
    · exact ⟨Nat.le_refl p, long, c, ends.maximal here fresh⟩
    · exact ⟨Nat.le_trans (Nat.le_of_succ_le ends.le) behind, whole⟩

theorem lists_runSpans_singleton (p : Nat) (run : Run) :
    Lists (fun s => s = ⟨p, run.length⟩ ∧ 1 < run.length) (runSpans p [run]) := by
  simp only [runSpans]
  split
  · next long => exact ⟨fun s => by simp [long], List.pairwise_singleton _ _⟩
  · next short => exact ⟨fun s => by simp [short], .nil⟩

/-- Reading from left to right lists every longer run that starts from there on. -/
theorem lists_runSpansFrom (text : Text) (p : Nat) (inside : p ≤ text.length)
    (fresh : ∀ k, k + 1 = p → text[k]? ≠ text[p]?) :
    Lists (fun s => p ≤ s.start ∧ LongRun text s) (runSpansFrom text p) := by
  obtain rfl | before := Nat.eq_or_lt_of_le inside
  · have nothing : runSpansFrom text text.length = [] := by
      rw [runSpansFrom, List.drop_length]
      rfl
    have none : ∀ s, text.length ≤ s.start → ¬ LongRun text s := by
      rintro s behind ⟨_, c, whole⟩
      have here := whole.same s.start (Nat.le_refl _) (Nat.lt_add_of_pos_right whole.nonempty)
      rw [List.getElem?_eq_none behind] at here
      cases here
    rw [nothing]
    exact ⟨fun s => by simpa using none s, .nil⟩
  · obtain ⟨c, here⟩ : ∃ c, text[p]? = some c := ⟨_, List.getElem?_eq_getElem before⟩
    have ends : RunEnd text c text.length (p + 1) _ := runEnd_spec text c before
    have later := ends.le
    have rest := lists_runSpansFrom text _ ends.le_limit (ends.fresh here)
    rw [runSpansFrom_eq here ends]
    refine ((lists_runSpans_singleton p _).append rest ?_).congr fun s => ?_
    · rintro a b ⟨rfl, _⟩ ⟨behind, _⟩
      exact Nat.lt_of_lt_of_le later behind
    · exact (longRun_from_iff here fresh ends).symm
termination_by text.length - p

theorem lists_longRuns (text : Text) : Lists (LongRun text) (runSpansFrom text 0) := by
  have all := lists_runSpansFrom text 0 (Nat.zero_le _) (fun k first => nomatch first)
  exact all.congr fun s => and_iff_right (Nat.zero_le _)

/-! ### The pairs of a text -/

theorem lists_eligiblePairs (partition : Partition) (text : Text) :
    Lists (EligiblePair partition text) (pairSpansFrom partition text 0) where
  mem_iff s := by
    rw [pairSpansFrom, List.mem_map]
    constructor
    · rintro ⟨p, found, rfl⟩
      exact ⟨rfl, pairAt_iff.mp (List.mem_filter.mp found).2⟩
    · rintro ⟨two, a, b, here, rest⟩
      obtain ⟨inside, _⟩ := List.getElem?_eq_some_iff.mp here
      have found := pairAt_iff.mpr ⟨a, b, here, rest⟩
      have position : s.start ∈ List.range' 0 (text.length - 0) := by simpa using inside
      exact ⟨s.start, List.mem_filter.mpr ⟨position, found⟩, by rw [← two]⟩
  ascending := by
    rw [pairSpansFrom, List.pairwise_map]
    exact List.Pairwise.filter _ List.pairwise_lt_range'

/-! ### Joining the scans -/

theorem Joins.tiling (h : Joins 0 n spans scans) (lists : Lists Asked spans) :
    Tiling n Asked scans where
  lists := h.found ▸ lists
  consecutive := h.consecutive
  disjoint := h.consecutive.pairwise
  covered p before := h.consecutive.exists_mem (Nat.zero_le p) before
  inside := h.inside
  forward := h.forward

theorem ranges_cons_of_lt (nonempty : scan.first < scan.last) (scans : List Scan) :
    ranges (scan :: scans) = ⟨scan.first, scan.last⟩ :: ranges scans := by
  simp [ranges, nonempty]

theorem ranges_cons_of_eq (empty : scan.first = scan.last) (scans : List Scan) :
    ranges (scan :: scans) = ranges scans := by
  simp [ranges, empty]

/-- One more scan in front. -/
theorem Joins.cons (h : Joins next n spans scans) (shown : scan.Shows ruleOf text pieces)
    (covers : scan.Covers first next) :
    Joins first n (scan.found.toList ++ spans) (scan :: scans) where
  found := by rw [List.flatMap_cons, h.found]
  consecutive := by
    cases covers with
    | nothing empty =>
        rw [ranges_cons_of_eq empty]
        exact h.consecutive
    | range nonempty from' upTo =>
        subst from' upTo
        rw [ranges_cons_of_lt nonempty]
        exact .cons nonempty h.consecutive
  inside := by
    rw [List.forall_mem_cons]
    exact ⟨fun s hs => shown.inside s (Array.mem_toList_iff.mpr hs), h.inside⟩
  forward := by
    rw [List.forall_mem_cons]
    exact ⟨shown.le, h.forward⟩

/-- The scans of all chunks join up. -/
theorem Scanner.joins {scan : Chunk → Scan} {At : Nat → Nat → Prop} {read : Nat → List Piece}
    {listed : Nat → List Span} (scanner : Scanner ruleOf text scan At read listed)
    {start : Nat} {chunks : List Chunk} (tile : Chunk.Tile start text.length chunks)
    (here : At start first) : Joins first text.length (listed first) (chunks.map scan) := by
  induction chunks generalizing start first with
  | nil =>
      cases tile with
      | nil =>
          obtain ⟨rfl, _, nothing⟩ := scanner.done first here
          rw [nothing]
          exact ⟨rfl, .nil _, by simp, by simp⟩
  | cons chunk rest ih =>
      cases tile with
      | cons nonempty tile =>
          obtain ⟨_, next, there, _, shown, covers, split⟩ :=
            scanner.chunk _ _ first nonempty tile.le here
          rw [split]
          exact (ih tile there).cons shown covers

/-- Whatever the size of the chunks is, the scans for runs found together exactly the maximal runs
of two or more symbols, and for every partition the scans for pairs found exactly the eligible
pairs, in order. The ranges of the scans that are not empty are consecutive, disjoint and cover the
text; every range has the spans that were found in its chunk, and no range ends before it begins. -/
theorem scans_tile (text : Text) {size : Nat} (positive : 0 < size) :
    Tiling text.length (LongRun text)
      ((Chunk.ofSize text.length size).map (scanRuns text.toArray)) ∧
    ∀ partition : Partition, Tiling text.length (EligiblePair partition text)
      ((Chunk.ofSize text.length size).map (scanPairs partition text.toArray)) := by
  have tile := Chunk.tile_ofSize text.length positive
  constructor
  · have joined := (scanner_runs text).joins tile .zero
    exact joined.tiling (lists_longRuns text)
  · intro partition
    have joined := (scanner_pairs partition text).joins tile rfl
    exact joined.tiling (lists_eligiblePairs partition text)

/-- A run that covers the second chunk, and another one that begins in the third chunk and ends in
the fourth. -/
theorem scans_tile_swallowed_chunks : 0 < 2 ∧
    Tiling 7 (LongRun [1, 1, 1, 1, 2, 3, 3])
      [⟨0, 4, #[⟨0, 4⟩]⟩, ⟨4, 4, #[]⟩, ⟨4, 7, #[⟨5, 2⟩]⟩, ⟨7, 7, #[]⟩] := by
  have positive : 0 < 2 := by decide
  obtain ⟨runs, _⟩ := scans_tile [1, 1, 1, 1, 2, 3, 3] positive
  have scanned : (Chunk.ofSize 7 2).map (scanRuns #[1, 1, 1, 1, 2, 3, 3]) =
      [⟨0, 4, #[⟨0, 4⟩]⟩, ⟨4, 4, #[]⟩, ⟨4, 7, #[⟨5, 2⟩]⟩, ⟨7, 7, #[]⟩] := by cbv
  exact ⟨positive, scanned ▸ runs⟩

end RunGrammar.Chunked
