import Mathlib
import RunGrammar.Alphabet
import RunGrammar.Compression.Rounds
import RunGrammar.Proofs.Compression.Pieces
import RunGrammar.Proofs.Grammar.Growth

/-!
# Naming the rules of a phase

The ways of compressing differ in how they carry a phase out, but what a phase
leaves depends on two choices only: the order in which the rules of the phase
get their ids, and what is reported when there are not enough of them. A
`Naming` is such a choice. `Naming.method` is the compression that it determines
without any tables, chunks or dense symbols; what is proved about it holds of
every method that simulates it.
-/

namespace RunGrammar

/-- The order of the new rules of a phase, and the test whether all of them get ids. -/
structure Naming where
  order : List Rule → List Rule
  /-- Exactly the rules of the phase are ordered. -/
  mem_order : ∀ rs r, r ∈ order rs ↔ r ∈ rs
  /-- Every rule gets one id. -/
  nodup_order : ∀ rs, (order rs).Nodup
  reserve : Grammar → Nat → Except Failure Unit
  reserve_fits : ∀ g count, g.terminals + g.size + count ≤ idSpace → reserve g count = .ok ()
  /-- A failure names a number of rules that is too large, but not larger than what was wanted. -/
  reserve_exhausted : ∀ g count, g.terminals ≤ idSpace →
    idSpace < g.terminals + g.size + count →
      ∃ wanted, reserve g count = .error (.idSpaceExhausted g.terminals wanted) ∧
        idSpace < g.terminals + wanted ∧ wanted ≤ g.size + count

namespace Naming

/-- The symbol that a piece leaves: folded pieces get the ids behind those of the grammar. -/
def symbolOf (g : Grammar) (rules : List Rule) : Piece → Symbol
  | .kept c => c
  | .folded r => g.ruleId (g.size + rules.idxOf r)

variable (n : Naming)

/-- Replaces the folded pieces of a text by the symbols of their rules, and counts them. -/
def fold (pieces : List Piece) : Phase Unit Nat := fun w =>
  let rules := n.order (pieces.filterMap Piece.rule?)
  match n.reserve w.grammar rules.length with
  | .error e => .error e w
  | .ok () => .ok (Piece.foldedCount pieces)
      { w with
        grammar := w.grammar.pushAll rules
        text := pieces.map (symbolOf w.grammar rules) }

/-- The compression that a naming determines. -/
def method : Method Unit where
  name := ""
  prepare alphabetSize := Phase.check fun w => Alphabet.check w.text alphabetSize
  replaceRuns := fun w => n.fold w.text.runPieces w
  replacePairs := fun w => n.fold ((Partition.ofText w.text).pairPieces w.text) w
  restore _ text := text

variable {n} {pieces : List Piece} {w : Workspace Unit}

theorem fold_of_reserve_ok
    (h : n.reserve w.grammar (n.order (pieces.filterMap Piece.rule?)).length = .ok ()) :
    n.fold pieces w = .ok (Piece.foldedCount pieces)
      { w with
        grammar := w.grammar.pushAll (n.order (pieces.filterMap Piece.rule?))
        text := pieces.map (symbolOf w.grammar (n.order (pieces.filterMap Piece.rule?))) } := by
  simp only [fold, h]

theorem fold_of_reserve_error {e : Failure}
    (h : n.reserve w.grammar (n.order (pieces.filterMap Piece.rule?)).length = .error e) :
    n.fold pieces w = .error e w := by
  simp only [fold, h]

/-- What a phase leaves when it goes through. -/
theorem eq_of_fold_ok {count : Nat} {w₁ : Workspace Unit} (done : n.fold pieces w = .ok count w₁) :
    n.reserve w.grammar (n.order (pieces.filterMap Piece.rule?)).length = .ok () ∧
      count = Piece.foldedCount pieces ∧
      w₁ = { w with
        grammar := w.grammar.pushAll (n.order (pieces.filterMap Piece.rule?))
        text := pieces.map (symbolOf w.grammar (n.order (pieces.filterMap Piece.rule?))) } := by
  cases reserved : n.reserve w.grammar (n.order (pieces.filterMap Piece.rule?)).length with
  | error e =>
      rw [fold_of_reserve_error reserved] at done
      cases done
  | ok _ =>
      rw [fold_of_reserve_ok reserved] at done
      cases done
      exact ⟨rfl, rfl, rfl⟩

theorem fits_of_reserve_ok {g : Grammar} {count : Nat} (small : g.terminals ≤ idSpace)
    (h : n.reserve g count = .ok ()) : g.terminals + g.size + count ≤ idSpace := by
  by_contra full
  obtain ⟨wanted, failed, _⟩ := n.reserve_exhausted g count small (Nat.not_le.mp full)
  cases failed.symm.trans h

/-! ### Ascending order -/

/-- The rules in ascending order, each of them once. -/
def sorted (rs : List Rule) : List Rule := (rs.mergeSort Rule.le).dedup

theorem mem_sorted (rs : List Rule) (r : Rule) : r ∈ sorted rs ↔ r ∈ rs := by
  rw [sorted, List.mem_dedup, List.mem_mergeSort]

theorem reserve_grammar_fits (g : Grammar) (count : Nat)
    (fits : g.terminals + g.size + count ≤ idSpace) : g.reserve count = .ok () := by
  have small : g.terminals + min (g.size + count) lengthCap ≤ idSpace := by omega
  simp [Grammar.reserve, Grammar.fitsIdSpace, small]

theorem reserve_grammar_exhausted (g : Grammar) (count : Nat)
    (full : idSpace < g.terminals + g.size + count) :
    g.reserve count =
      .error (.idSpaceExhausted g.terminals (min (g.size + count) lengthCap)) := by
  have large : ¬ g.terminals + min (g.size + count) lengthCap ≤ idSpace := by
    have : idSpace < lengthCap := by decide
    omega
  simp [Grammar.reserve, Grammar.fitsIdSpace, large]

/-- Rules are named in ascending order, and all ids of a phase are reserved at once. -/
def ascending : Naming where
  order := sorted
  mem_order := mem_sorted
  nodup_order rs := List.nodup_dedup _
  reserve := Grammar.reserve
  reserve_fits := reserve_grammar_fits
  reserve_exhausted := by
    intro g count _ full
    refine ⟨_, reserve_grammar_exhausted g count full, ?_, Nat.min_le_left _ _⟩
    have : idSpace < lengthCap := by decide
    omega

/-! ### Order of appearance -/

/-- A rule that is met comes behind the rules met before, unless it is one of them. -/
def meet (met : List Rule) (r : Rule) : List Rule := if r ∈ met then met else met ++ [r]

theorem mem_meet {met : List Rule} {r s : Rule} : s ∈ meet met r ↔ s ∈ met ∨ s = r := by
  unfold meet
  split
  · next old =>
      constructor
      · exact Or.inl
      · rintro (h | rfl)
        · exact h
        · exact old
  · simp

theorem nodup_meet {met : List Rule} {r : Rule} (h : met.Nodup) : (meet met r).Nodup := by
  unfold meet
  split
  · exact h
  · next new => exact List.nodup_append.mpr ⟨h, by simp, by grind⟩

/-- The rules in the order of their first appearance. -/
def appearance (rs : List Rule) : List Rule := rs.foldl meet []

theorem mem_foldl_meet {rs met : List Rule} {s : Rule} :
    s ∈ rs.foldl meet met ↔ s ∈ met ∨ s ∈ rs := by
  induction rs generalizing met with
  | nil => simp
  | cons r rs ih => rw [List.foldl_cons, ih, mem_meet, List.mem_cons, or_assoc]

theorem nodup_foldl_meet {rs met : List Rule} (h : met.Nodup) : (rs.foldl meet met).Nodup := by
  induction rs generalizing met with
  | nil => exact h
  | cons r rs ih => exact ih (nodup_meet h)

/-- Rules are named as they appear, so it is the first missing id that is reported. -/
def firstSeen : Naming where
  order := appearance
  mem_order rs r := by simp [appearance, mem_foldl_meet]
  nodup_order rs := nodup_foldl_meet List.nodup_nil
  reserve g count :=
    if g.terminals + g.size + count ≤ idSpace then .ok ()
    else .error (.idSpaceExhausted g.terminals (idSpace - g.terminals + 1))
  reserve_fits g count fits := if_pos fits
  reserve_exhausted g count small full := by
    refine ⟨idSpace - g.terminals + 1, if_neg (by omega), ?_, ?_⟩ <;> omega

end Naming

end RunGrammar
