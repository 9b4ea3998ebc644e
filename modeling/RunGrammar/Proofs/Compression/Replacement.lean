import Mathlib
import RunGrammar.Proofs.Compression.Naming
import RunGrammar.Proofs.Partition.Cut

/-!
# Replacing pieces of a text

A phase reads a text in pieces and appends the rules of the folded ones to the
grammar, each rule once. `Replacement` says what this takes: the grammar is in
arena order and knows the symbols of the text, the pieces spell the text, and
there are ids for all rules.

Then a symbol that is written for a folded piece is new and has the rule of the
piece, and every symbol that is written stands for what its piece covers. So the
new text stands for what the old one stood for. Since new symbols are never mixed
up with old ones, pieces that begin with different symbols leave different ones.
-/

namespace RunGrammar

namespace Grammar

/-- The symbols that a rule is made from spell its expansion. -/
theorem expandRule_eq_flatMap (g : Grammar) (r : Rule) :
    g.expandRule r = (Piece.folded r).text.flatMap g.expand := by
  cases r with
  | pair a b => simp [expandRule, Piece.text]
  | block a n => rw [expandRule, Piece.text, List.flatMap_replicate]

end Grammar

/-- A list of rules holds the rules of the folded pieces, each of them once. -/
structure Covers (rules : List Rule) (pieces : List Piece) : Prop where
  mem_iff : ∀ r, r ∈ rules ↔ .folded r ∈ pieces
  nodup : rules.Nodup

theorem Covers.length_le {rules : List Rule} {pieces : List Piece} (c : Covers rules pieces) :
    rules.length ≤ Piece.foldedCount pieces := by
  rw [← Piece.length_filterMap_rule?]
  apply List.Subperm.length_le
  apply List.subperm_of_subset c.nodup
  intro r hr
  exact Piece.mem_filterMap_rule?_iff.mpr ((c.mem_iff r).mp hr)

theorem Covers.idxOf_lt {rules : List Rule} {pieces : List Piece} (c : Covers rules pieces)
    {r : Rule} (h : .folded r ∈ pieces) : rules.idxOf r < rules.length :=
  List.idxOf_lt_length_iff.mpr ((c.mem_iff r).mpr h)

/-- The symbols of folded pieces follow those of the grammar. -/
theorem Covers.symbolOf_toNat {rules : List Rule} {pieces : List Piece} (c : Covers rules pieces)
    {g : Grammar} (fits : g.terminals + g.size + rules.length ≤ idSpace) {r : Rule}
    (h : .folded r ∈ pieces) :
    (Naming.symbolOf g rules (.folded r)).toNat = g.terminals + (g.size + rules.idxOf r) := by
  have index := c.idxOf_lt h
  exact Grammar.ruleId_toNat (by omega)

theorem Naming.covers (n : Naming) (pieces : List Piece) :
    Covers (n.order (pieces.filterMap Piece.rule?)) pieces :=
  ⟨fun r => (n.mem_order _ r).trans Piece.mem_filterMap_rule?_iff, n.nodup_order _⟩

/-- Folding pieces over symbols of the grammar makes sound rules. -/
theorem Spells.soundAt {pieces : List Piece} {text : Text} {g : Grammar}
    (spells : Spells pieces text) (known : ∀ c ∈ text, g.Known c) {r : Rule}
    (hr : .folded r ∈ pieces) : r.SoundAt (g.terminals + g.size) := by
  have operands : ∀ a ∈ r.operands, g.Known a := fun a ha => known a (spells.operand_mem hr ha)
  have folds := spells.folds r hr
  cases r with
  | pair a b => exact ⟨operands a Rule.left_mem_operands, operands b Rule.right_mem_operands⟩
  | block a n => exact ⟨operands a Rule.copied_mem_operands, folds⟩

/-- Pieces of a text over symbols of the grammar, and rules for those that are folded, all of which
get ids. -/
structure Replacement (g : Grammar) (text : Text) (pieces : List Piece) (rules : List Rule) :
    Prop where
  ordered : g.Ordered
  known : ∀ c ∈ text, g.Known c
  spells : Spells pieces text
  covers : Covers rules pieces
  fits : g.terminals + g.size + rules.length ≤ idSpace

namespace Replacement

variable {g : Grammar} {text : Text} {pieces part : List Piece} {rules : List Rule} {r : Rule}
variable (h : Replacement g text pieces rules)

include h

theorem soundAt (hr : r ∈ rules) : r.SoundAt (g.terminals + g.size) :=
  h.spells.soundAt h.known ((h.covers.mem_iff r).mp hr)

theorem rising : g.Rising rules := Grammar.rising_of_sound fun _ hr => h.soundAt hr

theorem ordered_pushAll : (g.pushAll rules).Ordered := h.ordered.pushAll h.rising

theorem fits_pushAll : (g.pushAll rules).terminals + (g.pushAll rules).size ≤ idSpace := by
  have fits := h.fits
  rw [Grammar.terminals_pushAll, Grammar.size_pushAll]
  omega

theorem symbolOf_toNat (hr : .folded r ∈ pieces) :
    (Naming.symbolOf g rules (.folded r)).toNat = g.terminals + (g.size + rules.idxOf r) :=
  h.covers.symbolOf_toNat h.fits hr

/-- Symbols of folded pieces are new. -/
theorem not_known_symbolOf (hr : .folded r ∈ pieces) :
    ¬ g.Known (Naming.symbolOf g rules (.folded r)) := by
  intro known
  have value := h.symbolOf_toNat hr
  unfold Grammar.Known at known
  omega

/-- The symbol of a folded piece has the rule of the piece. -/
theorem rule?_symbolOf (hr : .folded r ∈ pieces) :
    (g.pushAll rules).rule? (Naming.symbolOf g rules (.folded r)) = some r := by
  have member := (h.covers.mem_iff r).mpr hr
  have index := h.covers.idxOf_lt hr
  have fits := h.fits
  rw [Naming.symbolOf, Grammar.rule?_pushAll_ruleId (by omega), List.getElem?_idxOf member]

theorem known_symbolOf {piece : Piece} (hp : piece ∈ pieces) :
    (g.pushAll rules).Known (Naming.symbolOf g rules piece) := by
  cases piece with
  | kept c => exact (h.known c (h.spells.kept_mem hp)).pushAll rules
  | folded r => exact Grammar.known_of_rule? (h.rule?_symbolOf hp)

theorem known_text : ∀ c ∈ pieces.map (Naming.symbolOf g rules), (g.pushAll rules).Known c := by
  intro c hc
  obtain ⟨piece, hp, rfl⟩ := List.mem_map.mp hc
  exact h.known_symbolOf hp

/-- A symbol of the new text stands for what its piece stood for. -/
theorem expand_symbolOf {piece : Piece} (hp : piece ∈ pieces) :
    (g.pushAll rules).expand (Naming.symbolOf g rules piece) = piece.text.flatMap g.expand := by
  cases piece with
  | kept c =>
      rw [Naming.symbolOf, Grammar.expand_pushAll_of_known (h.known c (h.spells.kept_mem hp))]
      simp [Piece.text]
  | folded r =>
      have operands : ∀ a ∈ r.operands, g.Known a :=
        fun a ha => h.known a (h.spells.operand_mem hp ha)
      rw [Grammar.expand_of_rule? h.ordered_pushAll (h.rule?_symbolOf hp),
        Grammar.expandRule_congr fun a ha => Grammar.expand_pushAll_of_known (operands a ha) rules,
        Grammar.expandRule_eq_flatMap]

/-- The symbols of some pieces stand for what the pieces cover. -/
theorem expand_part (inside : part ⊆ pieces) :
    (part.map (Naming.symbolOf g rules)).flatMap (g.pushAll rules).expand =
      (part.flatMap Piece.text).flatMap g.expand := by
  rw [List.flatMap_map, List.flatMap_assoc]
  exact List.flatMap_congr fun piece hp => h.expand_symbolOf (inside hp)

/-- The new text stands for what the old one stood for. -/
theorem expands : (pieces.map (Naming.symbolOf g rules)).flatMap (g.pushAll rules).expand =
    text.flatMap g.expand := by
  rw [h.expand_part (List.Subset.refl pieces), h.spells.flatMap_text]

/-- Pieces with different first symbols leave different symbols. -/
theorem first_eq_of_symbolOf_eq {x y : Piece} (hx : x ∈ pieces) (hy : y ∈ pieces)
    (same : Naming.symbolOf g rules x = Naming.symbolOf g rules y) : x.first = y.first := by
  have old : ∀ c, .kept c ∈ pieces → g.Known (Naming.symbolOf g rules (.kept c)) :=
    fun c hc => h.known c (h.spells.kept_mem hc)
  cases x with
  | kept c =>
      cases y with
      | kept d => exact same
      | folded r => exact absurd (same ▸ old c hx) (h.not_known_symbolOf hy)
  | folded r =>
      cases y with
      | kept d => exact absurd (same ▸ old d hy) (h.not_known_symbolOf hx)
      | folded r' =>
          -- One symbol has one rule.
          have rule := h.rule?_symbolOf hx
          rw [same, h.rule?_symbolOf hy] at rule
          cases rule
          rfl

theorem distinct (differ : pieces.IsChain fun x y => x.first ≠ y.first) :
    Text.Distinct (pieces.map (Naming.symbolOf g rules)) := by
  rw [Text.Distinct, List.isChain_map]
  apply List.IsChain.imp_of_mem_imp _ differ
  intro x y hx hy differ same
  exact differ (h.first_eq_of_symbolOf_eq hx hy same)

end Replacement

end RunGrammar
