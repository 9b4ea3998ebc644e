import Mathlib
import RunGrammar.Alphabet.Table
import RunGrammar.Proofs.Alphabet.Remapping

/-!
# Tables find the dense form

A table of marks holds which symbols of a text occur and nothing more. So merging
the tables of some parts in any way gives the table of the whole text, and the
place that a symbol is given when the marks are counted is its rank among the
letters. What is left of a text that is rewritten by tables is its dense form.

The chunks of a text can be checked in any order. The order decides which symbol
is reported, but not whether one is.
-/

namespace RunGrammar.Alphabet

variable {text : Text} {size : Nat} {c : Symbol}

namespace Marks

/-- A table holds nothing but which of its symbols occur. -/
theorem ofText_eq (size : Nat) (text : Text) :
    ofText size text = (Array.range size).map fun i => decide (∃ c ∈ text, c.toNat = i) := by
  have marked (marks : Marks) (i : Nat) :
      (text.foldl (fun marks c => marks.setIfInBounds c.toNat true) marks)[i]? =
        if ∃ c ∈ text, c.toNat = i then marks[i]?.map fun _ => true else marks[i]? := by
    induction text generalizing marks with
    | nil => simp
    | cons c text ih =>
        rw [List.foldl_cons, ih]
        by_cases here : c.toNat = i
        · subst here
          by_cases inside : c.toNat < marks.size <;> simp [inside]
        · simp [here]
  apply Array.ext_getElem?
  intro i
  rw [ofText, marked]
  by_cases inside : i < size
  · by_cases occurs : ∃ c ∈ text, c.toNat = i <;> simp [blank, inside, occurs]
  · simp [blank, inside]

theorem size_ofText (size : Nat) (text : Text) : (ofText size text).size = size := by
  simp [ofText_eq]

theorem has_ofText {i : Nat} (inside : i < size) :
    (ofText size text).has i = true ↔ ∃ c ∈ text, c.toNat = i := by
  simp [has, ofText_eq, inside]

/-- Merged, the tables of two parts are the table of both. -/
theorem merge_ofText (size : Nat) (front back : Text) :
    merge (ofText size front) (ofText size back) = ofText size (front ++ back) := by
  apply Array.ext_getElem?
  intro i
  by_cases inside : i < size
  · simp [merge, ofText_eq, inside, or_and_right, exists_or]
  · simp [merge, ofText_eq, inside]

/-- In whatever way the tables of some parts are merged, the result is the table of all of them. -/
theorem Merged.eq_ofText {tables : List Marks} {marks : Marks} (merged : Merged size tables marks) :
    ∀ parts : List Text, tables = parts.map (ofText size) → marks = ofText size parts.flatten := by
  induction merged with
  | nothing =>
      intro parts same
      obtain rfl := List.map_eq_nil_iff.mp same.symm
      rfl
  | single marks =>
      intro parts same
      obtain ⟨part, rest, rfl, here, none⟩ := List.map_eq_cons_iff.mp same.symm
      obtain rfl := List.map_eq_nil_iff.mp none
      simp [← here]
  | join _ _ left right =>
      intro parts same
      obtain ⟨front, back, rfl, hx, hy⟩ := List.map_eq_append_iff.mp same.symm
      rw [left front hx.symm, right back hy.symm, merge_ofText, List.flatten_append]

/-! ### Ranks -/

/-- The marked symbols below `n`, ascending. -/
def below (marks : Marks) (n : Nat) : List Nat := (List.range n).filter marks.has

/-- Symbols have been numbered up to `n`. -/
structure Numbered (marks : Marks) (n : Nat) (found : Array Symbol × Array Symbol) : Prop where
  present : found.1.toList = (marks.below n).map .ofNat
  size : found.2.size = marks.size
  place : ∀ i < n, i < marks.size → marks.has i = true →
    found.2[i]? = some (.ofNat (marks.below i).length)

theorem below_succ_of_has {marks : Marks} {n : Nat} (marked : marks.has n = true) :
    marks.below (n + 1) = marks.below n ++ [n] := by
  simp [below, List.range_succ, marked]

theorem below_succ_of_not_has {marks : Marks} {n : Nat} (free : ¬ marks.has n = true) :
    marks.below (n + 1) = marks.below n := by
  simp [below, List.range_succ, free]

theorem Numbered.number {marks : Marks} {n : Nat} {found : Array Symbol × Array Symbol}
    (h : marks.Numbered n found) : marks.Numbered (n + 1) (marks.number found n) := by
  by_cases marked : marks.has n = true
  · have count : found.1.size = (marks.below n).length := by
      simpa using congrArg List.length h.present
    simp only [Marks.number, marked, if_true]
    refine ⟨?_, ?_, ?_⟩
    · simp [below_succ_of_has marked, h.present]
    · simpa using h.size
    · intro i early inside isMarked
      obtain before | rfl := Nat.lt_succ_iff_lt_or_eq.mp early
      · simpa [Nat.ne_of_gt before] using h.place i before inside isMarked
      · simp [h.size, inside, count]
  · simp only [Marks.number, marked]
    refine ⟨?_, h.size, ?_⟩
    · simpa [below_succ_of_not_has marked] using h.present
    · intro i early inside isMarked
      obtain before | rfl := Nat.lt_succ_iff_lt_or_eq.mp early
      · exact h.place i before inside isMarked
      · exact absurd isMarked marked

theorem numbered_ranks (marks : Marks) : marks.Numbered marks.size marks.ranks := by
  have upTo (n : Nat) : marks.Numbered n
      ((List.range n).foldl marks.number (#[], Array.replicate marks.size 0)) := by
    induction n with
    | zero => exact ⟨rfl, Array.size_replicate, fun i early => absurd early (Nat.not_lt_zero i)⟩
    | succ n ih =>
        rw [List.range_succ, List.foldl_append]
        exact ih.number
  exact upTo marks.size

/-- Behind the marked symbols below `i` comes `i`, if it is marked. -/
theorem getElem?_below {marks : Marks} {i n : Nat} (inside : i < n) (marked : marks.has i = true) :
    (marks.below n)[(marks.below i).length]? = some i := by
  obtain ⟨rest, rfl⟩ := Nat.exists_eq_add_of_le (Nat.succ_le_of_lt inside)
  have split : marks.below (i + 1 + rest) =
      marks.below i ++ i :: ((List.range rest).map (i + 1 + ·)).filter marks.has := by
    have front := below_succ_of_has marked
    unfold below at front ⊢
    rw [List.range_add, List.filter_append, front, List.append_assoc, List.singleton_append]
  simp [split]

section Letters

variable (inside : ∀ c ∈ text, c.toNat < size)

include inside

/-- The marked symbols are the letters of the text. -/
theorem map_below_ofText :
    ((ofText size text).below size).map UInt32.ofNat = (letters text).toList := by
  have occurs : ∀ i ∈ (ofText size text).below size, ∃ c ∈ text, c.toNat = i := by
    intro i hi
    obtain ⟨early, marked⟩ := List.mem_filter.mp hi
    exact (has_ofText (List.mem_range.mp early)).mp marked
  apply ascending_unique
  · rw [List.pairwise_map]
    apply (List.pairwise_lt_range.filter _).imp_of_mem
    intro i j hi hj less
    obtain ⟨a, _, rfl⟩ := occurs i hi
    obtain ⟨b, _, rfl⟩ := occurs j hj
    simpa [UInt32.lt_iff_toNat_lt] using less
  · exact pairwise_letters text
  · intro c
    rw [mem_letters, List.mem_map]
    constructor
    · rintro ⟨i, hi, rfl⟩
      obtain ⟨a, ha, rfl⟩ := occurs i hi
      simpa using ha
    · intro hc
      have marked := (has_ofText (inside c hc)).mpr ⟨c, hc, rfl⟩
      exact ⟨c.toNat, List.mem_filter.mpr ⟨List.mem_range.mpr (inside c hc), marked⟩,
        UInt32.ofNat_toNat⟩

theorem present_ofText : (ofText size text).ranks.1 = letters text := by
  have numbered := (numbered_ranks (ofText size text)).present
  rw [size_ofText, map_below_ofText inside] at numbered
  exact Array.toList_inj.mp numbered

/-- A letter is given its rank. -/
theorem place_ofText (hc : c ∈ text) :
    (ofText size text).ranks.2[c.toNat]? = some (rank (letters text) c) := by
  have early : c.toNat < (ofText size text).size := (size_ofText size text).symm ▸ inside c hc
  have marked := (has_ofText (inside c hc)).mpr ⟨c, hc, rfl⟩
  rw [(numbered_ranks _).place c.toNat early early marked]
  have there : (letters text)[((ofText size text).below c.toNat).length]? = some c := by
    rw [← Array.getElem?_toList, ← map_below_ofText inside, List.getElem?_map,
      getElem?_below (inside c hc) marked, Option.map_some, UInt32.ofNat_toNat]
  have value := toNat_rank_of_getElem? (pairwise_letters text) there
  rw [← value, UInt32.ofNat_toNat]

/-- So every symbol of the text is replaced by its rank. -/
theorem map_place_ofText :
    (text.map fun c => (ofText size text).ranks.2.getD c.toNat c) =
      text.map (rank (letters text)) := by
  apply List.map_congr_left
  intro c hc
  rw [Array.getD_eq_getD_getElem?, place_ofText inside hc, Option.getD_some]

end Letters

end Marks

theorem lt_tableSize (hc : c ∈ text) : c.toNat < tableSize text :=
  Nat.lt_of_succ_le (le_foldl_max (fun c : Symbol => c.toNat + 1) 0 hc)

/-! ### Rewriting a text -/

theorem examine_of_ok {test : Text → Except Failure Unit} (passed : test text = .ok ()) :
    examine test text = .ok () text := by
  simp only [examine, passed]

theorem examine_of_error {test : Text → Except Failure Unit} {e : Failure}
    (failed : test text = .error e) : examine test text = .error e text := by
  simp only [examine, failed]

/-- By the table of its own symbols a text is made dense. -/
theorem rewriteByRank_ofText (inside : ∀ c ∈ text, c.toNat < size) :
    rewriteByRank (Marks.ofText size text) text = .ok (dense text).mapping (dense text).text := by
  change EStateM.Result.ok (Marks.ofText size text).ranks.1
    (text.map fun c => (Marks.ofText size text).ranks.2.getD c.toNat c) = _
  rw [Marks.present_ofText inside, Marks.map_place_ofText inside]
  rfl

theorem rewriteByRank_tableSize (text : Text) :
    rewriteByRank (Marks.ofText (tableSize text) text) text =
      .ok (dense text).mapping (dense text).text :=
  rewriteByRank_ofText fun _ hc => lt_tableSize hc

theorem replaceByTable_of_below (below : ∀ c ∈ text, c.toNat < size) :
    replaceByTable size text = .ok (dense text).mapping (dense text).text := by
  have passed : examine (check · size) text = .ok () text := examine_of_ok (check_of_below below)
  exact (Failing.bind_of_ok passed).trans (rewriteByRank_tableSize text)

/-- The first symbol outside the alphabet is reported, before anything is rewritten. -/
theorem replaceByTable_of_find? (first : text.find? (fun c => size ≤ c.toNat) = some c) :
    replaceByTable size text = .error (.outsideAlphabet c.toNat size) text :=
  Failing.bind_of_error (examine_of_error (check_of_find? first))

section Chunks

variable (s : Schedule) (parts : Nat)

/-- The merged table of the chunks is the table of the text. -/
theorem merge_tables (entries : Nat) :
    s.merge entries ((Chunk.split text.length parts).map fun chunk =>
      Marks.ofText entries (chunk.slice text.toArray)) = Marks.ofText entries text := by
  have merged := (s.merged entries _).eq_ofText
    ((Chunk.split text.length parts).map (·.slice text.toArray)) (List.map_map ..).symm
  rwa [← List.flatMap_def, Chunk.flatMap_slice_split] at merged

/-- The symbols of the chunks, in the order in which they are checked. -/
def scanned (text : Text) : Text :=
  (s.order (Chunk.split text.length parts)).flatMap (·.slice text.toArray)

theorem mem_scanned : c ∈ scanned s parts text ↔ c ∈ text := by
  have perm := (s.perm (Chunk.split text.length parts)).flatMap_right (·.slice text.toArray)
  rw [Chunk.flatMap_slice_split] at perm
  exact perm.mem_iff

/-- The chunks of a text with symbols are checked before anything is merged. -/
theorem replaceByTables_of_filled (filled : text ≠ []) :
    replaceByTables s parts size text =
      (do
        examine fun t => checkIn (s.order (Chunk.split text.length parts)) t.toArray size
        rewriteByRank (Marks.ofText (tableSize text) text)) text := by
  rw [← merge_tables s parts]
  cases text with
  | nil => contradiction
  | cons c rest => rfl

theorem replaceByTables_of_below (below : ∀ c ∈ text, c.toNat < size) :
    replaceByTables s parts size text = .ok (dense text).mapping (dense text).text := by
  by_cases filled : text = []
  · subst filled
    rfl
  · have passed : check (scanned s parts text) size = .ok () :=
      check_of_below fun c hc => below c ((mem_scanned s parts).mp hc)
    rw [replaceByTables_of_filled s parts filled]
    apply (Failing.bind_of_ok (examine_of_ok ?_)).trans (rewriteByRank_tableSize text)
    exact (checkIn_eq ..).trans passed

/-- Which symbol is reported depends on the order, but it is one outside the alphabet. -/
theorem replaceByTables_of_outside (outside : ∃ c ∈ text, size ≤ c.toNat) :
    ∃ c ∈ text, size ≤ c.toNat ∧
      replaceByTables s parts size text = .error (.outsideAlphabet c.toNat size) text := by
  obtain ⟨d, hd, high⟩ := outside
  obtain ⟨c, hc, above, first⟩ := exists_find?_of_outside ⟨d, (mem_scanned s parts).mpr hd, high⟩
  refine ⟨c, (mem_scanned s parts).mp hc, above, ?_⟩
  rw [replaceByTables_of_filled s parts (List.ne_nil_of_mem hd)]
  exact Failing.bind_of_error (examine_of_error ((checkIn_eq ..).trans (check_of_find? first)))

end Chunks

/-- A text with a symbol outside the alphabet is refused and left as it is: from left to right the
first one is reported, and by chunks in any order some one. Every other text is replaced by its
dense form, in whatever way the work is done, and replacing it once more changes nothing. -/
theorem replaceLetters_specified (s : Schedule) (parts : Nat) (text : Text) (size : Nat) :
    (∀ c, text.find? (fun c => size ≤ c.toNat) = some c →
      replaceByTable size text = .error (.outsideAlphabet c.toNat size) text ∧
      replaceLetters text size = .error (.outsideAlphabet c.toNat size) ∧
      replaceLettersIn parts text size = .error (.outsideAlphabet c.toNat size) ∧
      ∃ d ∈ text, size ≤ d.toNat ∧
        replaceByTables s parts size text = .error (.outsideAlphabet d.toNat size) text) ∧
    ((∀ c ∈ text, c.toNat < size) →
      ∃ d : Dense, d.Remaps text ∧ (∀ other : Dense, other.Remaps text → other = d) ∧
        replaceByTable size text = .ok d.mapping d.text ∧
        replaceLetters text size = .ok d ∧
        replaceLettersIn parts text size = .ok d ∧
        replaceByTables s parts size text = .ok d.mapping d.text ∧
        replaceByTable size d.text = .ok (identity d.mapping.size) d.text) := by
  constructor
  · intro c first
    have member := List.mem_of_find?_eq_some first
    have high : size ≤ c.toNat := by simpa using List.find?_some first
    have refused := replaceLetters_of_find? first
    exact ⟨replaceByTable_of_find? first, refused, (replaceLettersIn_eq ..).trans refused,
      replaceByTables_of_outside s parts ⟨c, member, high⟩⟩
  · intro below
    have remaps := remaps_dense text
    have answered := replaceLetters_of_below below
    refine ⟨dense text, remaps, fun other h => h.eq_dense, replaceByTable_of_below below, answered,
      (replaceLettersIn_eq ..).trans answered, replaceByTables_of_below s parts below, ?_⟩
    -- No symbol is larger than the letter that it stands for.
    have small : ∀ c ∈ (dense text).text, c.toNat < size := by
      intro c hc
      obtain ⟨v, hv, entry⟩ := remaps.exists_entry hc
      rw [← Array.getElem?_toList] at entry
      exact Nat.lt_of_le_of_lt (le_of_getElem?_ascending remaps.ascending entry) (below v hv)
    have again := replaceByTable_of_below small
    rwa [← remaps.again.eq_dense] at again

/-- The letters 1, 5 and 9 of one text become 0, 1 and 2, and of another text 8 is refused. -/
theorem replaceLetters_specified_letters :
    replaceByTable 10 [5, 1, 5, 9, 1] = .ok #[1, 5, 9] [1, 0, 1, 2, 0] ∧
      replaceByTables .sequential 3 10 [5, 1, 5, 9, 1] = .ok #[1, 5, 9] [1, 0, 1, 2, 0] ∧
      replaceByTable 6 [1, 8, 2, 7] = .error (.outsideAlphabet 8 6) [1, 8, 2, 7] := by
  have expected : (Dense.mk [1, 0, 1, 2, 0] #[1, 5, 9]).Remaps [5, 1, 5, 9, 1] :=
    ⟨by decide, fun c => by simp; tauto, by decide⟩
  obtain ⟨d, _, unique, left, _, _, chunks, _⟩ :=
    (replaceLetters_specified .sequential 3 [5, 1, 5, 9, 1] 10).2 (by simp)
  obtain ⟨refused, _⟩ :=
    (replaceLetters_specified .sequential 3 [1, 8, 2, 7] 6).1 8 (by decide)
  obtain rfl := unique _ expected
  exact ⟨left, chunks, refused⟩

end RunGrammar.Alphabet
