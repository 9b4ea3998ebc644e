import Mathlib
import RunGrammar.Compression.Piece
import RunGrammar.Proofs.Text.Runs

/-!
# Reading a text in pieces

Both ways of reading a text in pieces spell the text out again, and a piece that
is replaced covers at least two symbols. A phase needs no more than this to keep
the derived text and to pay for its rules with symbols of the text.

Beyond that, neighbouring runs begin with different symbols, every eligible pair
of neighbours is a piece of its own, and both readings commute with a renaming
of the symbols that keeps what the reading depends on.
-/

namespace RunGrammar

/-- A rule that stands for two or more symbols of a text. -/
def Rule.Folds : Rule → Prop
  | .pair _ _ => True
  | .block _ n => 2 ≤ n.toNat

/-- The pieces give the text back, and what is folded is worth a rule. -/
structure Spells (pieces : List Piece) (text : Text) : Prop where
  flatMap_text : pieces.flatMap Piece.text = text
  folds : ∀ r, Piece.folded r ∈ pieces → r.Folds

namespace Piece

/-- The piece of a renamed text. -/
def rename (f : Symbol → Symbol) : Piece → Piece
  | kept c => kept (f c)
  | folded r => folded (r.rename f)

@[simp] theorem foldedCount_nil : foldedCount [] = 0 := rfl

@[simp] theorem foldedCount_kept (c : Symbol) (pieces : List Piece) :
    foldedCount (kept c :: pieces) = foldedCount pieces := by
  simp [foldedCount, rule?]

@[simp] theorem foldedCount_folded (r : Rule) (pieces : List Piece) :
    foldedCount (folded r :: pieces) = foldedCount pieces + 1 := by
  simp [foldedCount, rule?]

theorem mem_filterMap_rule?_iff {pieces : List Piece} {r : Rule} :
    r ∈ pieces.filterMap rule? ↔ folded r ∈ pieces := by
  rw [List.mem_filterMap]
  constructor
  · rintro ⟨piece, member, found⟩
    cases piece with
    | kept c => cases found
    | folded s =>
        cases found
        exact member
  · intro member
    exact ⟨folded r, member, rfl⟩

theorem length_filterMap_rule? (pieces : List Piece) :
    (pieces.filterMap rule?).length = foldedCount pieces := by
  induction pieces with
  | nil => rfl
  | cons piece pieces ih =>
      cases piece with
      | kept c => rw [List.filterMap_cons_none rfl, ih, foldedCount_kept]
      | folded r =>
          have found : rule? (folded r) = some r := rfl
          rw [List.filterMap_cons_some found, List.length_cons, ih, foldedCount_folded]

theorem two_le_length_text {r : Rule} (h : r.Folds) : 2 ≤ (folded r).text.length := by
  cases r with
  | pair a b => exact Nat.le_refl 2
  | block a n =>
      rw [text, List.length_replicate]
      exact h

theorem operand_mem_text {r : Rule} (h : r.Folds) {a : Symbol} (ha : a ∈ r.operands) :
    a ∈ (folded r).text := by
  cases r with
  | pair b c => simpa [text, Rule.operands] using ha
  | block b n =>
      have : 2 ≤ n.toNat := h
      rw [List.mem_singleton.mp ha, text, List.mem_replicate]
      exact ⟨by omega, rfl⟩

end Piece

namespace Spells

variable {pieces : List Piece} {text : Text}

theorem kept_mem (s : Spells pieces text) {c : Symbol} (h : Piece.kept c ∈ pieces) : c ∈ text := by
  rw [← s.flatMap_text]
  exact List.mem_flatMap.mpr ⟨_, h, by simp [Piece.text]⟩

theorem operand_mem (s : Spells pieces text) {r : Rule} (h : Piece.folded r ∈ pieces) {a : Symbol}
    (ha : a ∈ r.operands) : a ∈ text := by
  rw [← s.flatMap_text]
  exact List.mem_flatMap.mpr ⟨_, h, Piece.operand_mem_text (s.folds r h) ha⟩

/-- Every folded piece saves a symbol. -/
theorem length_add_foldedCount_le (s : Spells pieces text) :
    pieces.length + Piece.foldedCount pieces ≤ text.length := by
  have saved : ∀ ps : List Piece, (∀ r, Piece.folded r ∈ ps → r.Folds) →
      ps.length + Piece.foldedCount ps ≤ (ps.flatMap Piece.text).length := by
    intro ps folds
    induction ps with
    | nil => simp
    | cons piece ps ih =>
        have rest := ih fun r hr => folds r (by simp [hr])
        rw [List.flatMap_cons, List.length_append, List.length_cons]
        cases piece with
        | kept c =>
            simp only [Piece.foldedCount_kept, Piece.text, List.length_singleton]
            omega
        | folded r =>
            have := Piece.two_le_length_text (folds r (by simp))
            rw [Piece.foldedCount_folded]
            omega
  rw [← s.flatMap_text]
  exact saved pieces s.folds

end Spells

/-! ### Runs -/

namespace Text

variable {text : Text}

theorem length_run_le {r : Run} (hr : r ∈ text.runs) : r.length ≤ text.length := by
  have inside := (List.sublist_flatten_of_mem (List.mem_map_of_mem (f := Run.text) hr)).length_le
  rw [← List.flatMap_def, flatMap_text_runs, Run.text, List.length_replicate] at inside
  exact inside

theorem text_ofRun {r : Run} (short : r.length < idSpace) : (Piece.ofRun r).text = r.text := by
  unfold Piece.ofRun
  split
  · next one => simp [Piece.text, Run.text, one]
  · have count : (UInt32.ofNat r.length).toNat = r.length := by
      rw [UInt32.toNat_ofNat']
      exact Nat.mod_eq_of_lt short
    simp [Piece.text, Run.text, count]

/-- Runs of less than `idSpace` symbols are spelled out by their pieces. -/
theorem flatMap_text_ofRun {runs : List Run} (short : ∀ r ∈ runs, r.length < idSpace) :
    (runs.map Piece.ofRun).flatMap Piece.text = runs.flatMap Run.text := by
  rw [List.flatMap_map]
  exact List.flatMap_congr fun r hr => text_ofRun (short r hr)

/-- By runs, a text of less than `idSpace` symbols is spelled out. -/
theorem spells_runPieces (short : text.length < idSpace) : Spells text.runPieces text := by
  constructor
  · rw [runPieces, flatMap_text_ofRun fun r hr => Nat.lt_of_le_of_lt (length_run_le hr) short,
      flatMap_text_runs]
  · intro rule h
    obtain ⟨r, hr, found⟩ := List.mem_map.mp h
    have positive := (maximal_runs text).nonempty r hr
    unfold Piece.ofRun at found
    split at found
    · cases found
    · cases found
      show 2 ≤ (UInt32.ofNat r.length).toNat
      have small : r.length % 2 ^ 32 = r.length :=
        Nat.mod_eq_of_lt (Nat.lt_of_le_of_lt (length_run_le hr) short)
      rw [UInt32.toNat_ofNat', small]
      omega

theorem first_ofRun (r : Run) : (Piece.ofRun r).first = r.symbol := by
  unfold Piece.ofRun
  split <;> rfl

/-- Neighbouring runs begin with different symbols. -/
theorem isChain_first_runPieces (text : Text) :
    text.runPieces.IsChain fun x y => x.first ≠ y.first := by
  rw [runPieces, List.isChain_map]
  simpa only [first_ofRun] using (maximal_runs text).differ

/-- The rules of runs are blocks. -/
theorem isBlock_of_mem_runPieces {r : Rule} (h : .folded r ∈ text.runPieces) :
    r.isBlock = true := by
  obtain ⟨run, _, found⟩ := List.mem_map.mp h
  unfold Piece.ofRun at found
  split at found
  · cases found
  · cases found
    rfl

theorem rename_ofRun (f : Symbol → Symbol) (r : Run) :
    Piece.ofRun (r.rename f) = (Piece.ofRun r).rename f := by
  unfold Piece.ofRun
  split <;> rename_i h <;> simp only [Run.rename] at h
  · simp [h, Piece.rename, Run.rename]
  · simp [h, Piece.rename, Run.rename, Rule.rename]

theorem runPieces_map {f : Symbol → Symbol} (inj : ∀ a ∈ text, ∀ b ∈ text, f a = f b → a = b) :
    Text.runPieces (text.map f) = text.runPieces.map (Piece.rename f) := by
  rw [runPieces, runs_map inj, runPieces, List.map_map, List.map_map]
  exact List.map_congr_left fun r _ => rename_ofRun f r

end Text

/-! ### Pairs -/

namespace Partition

variable {p : Partition} {text : Text}

theorem readPairs_append (p : Partition) (done read : Array Piece) (text : Text) :
    p.readPairs (done ++ read) text = done ++ p.readPairs read text := by
  fun_induction readPairs p read text with
  | case1 read a b rest h ih => rw [readPairs, if_pos h, ← Array.append_push, ih]
  | case2 read a b rest h ih => rw [readPairs, if_neg h, ← Array.append_push, ih]
  | case3 read a => rw [readPairs, Array.append_push]
  | case4 read => rw [readPairs]

@[simp] theorem pairPieces_nil (p : Partition) : p.pairPieces [] = [] := rfl

@[simp] theorem pairPieces_singleton (p : Partition) (a : Symbol) :
    p.pairPieces [a] = [.kept a] := rfl

theorem toList_readPairs_singleton (p : Partition) (piece : Piece) (text : Text) :
    (p.readPairs #[piece] text).toList = piece :: p.pairPieces text := by
  have split := p.readPairs_append #[piece] #[] text
  rw [Array.append_empty] at split
  rw [split, Array.toList_append]
  rfl

theorem pairPieces_of_eligible {a b : Symbol} (h : p.eligible a b) (rest : Text) :
    p.pairPieces (a :: b :: rest) = .folded (.pair a b) :: p.pairPieces rest := by
  rw [pairPieces, readPairs, if_pos h]
  exact p.toList_readPairs_singleton _ rest

theorem pairPieces_of_not_eligible {a b : Symbol} (h : p.eligible a b = false) (rest : Text) :
    p.pairPieces (a :: b :: rest) = .kept a :: p.pairPieces (b :: rest) := by
  rw [pairPieces, readPairs, if_neg (by simp [h])]
  exact p.toList_readPairs_singleton _ (b :: rest)

/-- Induction along the reading of a text by pairs. -/
theorem pairs_induction (p : Partition) {P : Text → Prop} (nil : P []) (single : ∀ a, P [a])
    (pair : ∀ a b rest, p.eligible a b = true → P rest → P (a :: b :: rest))
    (skip : ∀ a b rest, p.eligible a b = false → P (b :: rest) → P (a :: b :: rest))
    (text : Text) : P text := by
  induction hn : text.length using Nat.strongRecOn generalizing text with
  | ind n ih =>
      match text, hn with
      | [], _ => exact nil
      | [a], _ => exact single a
      | a :: b :: rest, hn =>
          simp only [List.length_cons] at hn
          cases h : p.eligible a b with
          | true => exact pair a b rest h (ih rest.length (by omega) rest rfl)
          | false => exact skip a b rest h (ih (rest.length + 1) (by omega) (b :: rest) rfl)

theorem flatMap_text_pairPieces (p : Partition) (text : Text) :
    (p.pairPieces text).flatMap Piece.text = text := by
  induction text using p.pairs_induction with
  | nil => rfl
  | single a => rfl
  | pair a b rest h ih =>
      rw [pairPieces_of_eligible h, List.flatMap_cons, ih]
      rfl
  | skip a b rest h ih =>
      rw [pairPieces_of_not_eligible h, List.flatMap_cons, ih]
      rfl

/-- A folded piece is an eligible pair of neighbours. -/
theorem eligible_of_folded_mem {r : Rule} (h : .folded r ∈ p.pairPieces text) :
    ∃ a b, r = .pair a b ∧ p.eligible a b = true := by
  induction text using p.pairs_induction with
  | nil => cases h
  | single a => simp at h
  | pair a b rest eligible ih =>
      rw [pairPieces_of_eligible eligible] at h
      obtain same | later := List.mem_cons.mp h
      · cases same
        exact ⟨a, b, rfl, eligible⟩
      · exact ih later
  | skip a b rest eligible ih =>
      rw [pairPieces_of_not_eligible eligible] at h
      obtain same | later := List.mem_cons.mp h
      · cases same
      · exact ih later

/-- The rules of eligible pairs are pairs. -/
theorem isBlock_of_mem_pairPieces {r : Rule} (h : .folded r ∈ p.pairPieces text) :
    r.isBlock = false := by
  obtain ⟨a, b, rfl, _⟩ := eligible_of_folded_mem h
  rfl

theorem spells_pairPieces (p : Partition) (text : Text) : Spells (p.pairPieces text) text := by
  refine ⟨p.flatMap_text_pairPieces text, ?_⟩
  intro r h
  obtain ⟨a, b, rfl, _⟩ := eligible_of_folded_mem h
  trivial

/-- The number of neighbours that may be replaced. -/
def eligibleCount (p : Partition) (text : Text) : Nat :=
  (text.zip text.tail).countP fun (a, b) => p.eligible a b

theorem eligibleCount_cons_cons (p : Partition) (a b : Symbol) (rest : Text) :
    p.eligibleCount (a :: b :: rest) =
      p.eligibleCount (b :: rest) + if p.eligible a b then 1 else 0 := by
  simp [eligibleCount, List.countP_cons]

/-- Behind an eligible pair, the first symbol does not begin another one. -/
theorem eligibleCount_cons_of_eligible {a b : Symbol} (h : p.eligible a b) (rest : Text) :
    p.eligibleCount (b :: rest) = p.eligibleCount rest := by
  cases rest with
  | nil => rfl
  | cons c rest => simp [eligibleCount_cons_cons, not_eligible_of_eligible h c]

/-- Eligible pairs do not overlap, so all of them are folded. -/
theorem foldedCount_pairPieces (p : Partition) (text : Text) :
    Piece.foldedCount (p.pairPieces text) = p.eligibleCount text := by
  induction text using p.pairs_induction with
  | nil => rfl
  | single a => rfl
  | pair a b rest h ih =>
      rw [pairPieces_of_eligible h, Piece.foldedCount_folded, ih, eligibleCount_cons_cons,
        eligibleCount_cons_of_eligible h, if_pos h]
  | skip a b rest h ih =>
      rw [pairPieces_of_not_eligible h, Piece.foldedCount_kept, ih, eligibleCount_cons_cons]
      simp [h]

theorem pairPieces_map {q : Partition} {f : Symbol → Symbol}
    (agree : ∀ a ∈ text, ∀ b ∈ text, q.eligible (f a) (f b) = p.eligible a b) :
    q.pairPieces (text.map f) = (p.pairPieces text).map (Piece.rename f) := by
  induction text using p.pairs_induction with
  | nil => rfl
  | single a => rfl
  | pair a b rest h ih =>
      have rest_agree := ih fun x hx y hy => agree x (by simp [hx]) y (by simp [hy])
      have same : q.eligible (f a) (f b) = true := by rw [agree a (by simp) b (by simp), h]
      rw [List.map_cons, List.map_cons, pairPieces_of_eligible same, pairPieces_of_eligible h,
        rest_agree]
      rfl
  | skip a b rest h ih =>
      have rest_agree := ih fun x hx y hy =>
        agree x (List.mem_cons_of_mem _ hx) y (List.mem_cons_of_mem _ hy)
      have same : q.eligible (f a) (f b) = false := by rw [agree a (by simp) b (by simp), h]
      rw [List.map_cons, List.map_cons, pairPieces_of_not_eligible same,
        pairPieces_of_not_eligible h, ← List.map_cons, rest_agree]
      rfl

end Partition

end RunGrammar
