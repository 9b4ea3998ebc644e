import Mathlib
import RunGrammar.Proofs.Compression.Replacement

/-!
# What a phase preserves

A stage of a compression is a grammar together with the text that is left. The
grammar is sound and its lengths are right, the text uses its symbols, and
expanding them gives the source back. Rules are paid for with symbols: together,
the rules and the text never outnumber the symbols of the source. Hence ids run
out only when there are fewer of them than terminals and symbols.

Replacing the folded pieces of the text preserves all of this, for every way of
naming the new rules. The new text has no equal neighbours if the pieces began
with different symbols.
-/

namespace RunGrammar

/-- A grammar and a text that, over so many terminals, stand for the source. -/
structure Stage (terminals : Nat) (source : Text) (g : Grammar) (text : Text) : Prop where
  terminals_eq : g.terminals = terminals
  arena : g.Arena
  sized : g.Sized
  known : ∀ c ∈ text, g.Known c
  expands : text.flatMap g.expand = source
  /-- Every rule was paid for with a symbol of the source. -/
  room : g.size + text.length ≤ source.length
  /-- No rule stands for more than the source. -/
  inside : ∀ r ∈ g.bareRules, (g.expandRule r).length ≤ source.length

namespace Stage

variable {terminals : Nat} {source text : Text} {g : Grammar} {pieces : List Piece}
variable {rules : List Rule}

/-- Before the first phase there are no rules. -/
theorem start (small : terminals ≤ idSpace) (below : ∀ c ∈ source, c.toNat < terminals) :
    Stage terminals source { terminals } source := by
  have known : ∀ c ∈ source, Grammar.Known { terminals } c := by
    intro c hc
    simpa [Grammar.Known, Grammar.size] using below c hc
  have letters : ∀ text : Text, (∀ c ∈ text, c.toNat < terminals) →
      text.flatMap (Grammar.expand { terminals }) = text := by
    intro text below
    induction text with
    | nil => rfl
    | cons c text ih =>
        rw [List.flatMap_cons, Grammar.expand_of_terminal (below c (by simp)),
          ih fun d hd => below d (by simp [hd])]
        rfl
  exact
    { terminals_eq := rfl
      arena := ⟨fun k entry found => by simp at found, by simpa [Grammar.size] using small⟩
      sized := fun k entry found => by simp at found
      known := known
      expands := letters source below
      room := by simp [Grammar.size]
      inside := fun r hr => by simp [Grammar.bareRules] at hr }

theorem short (s : Stage terminals source g text) : text.length ≤ source.length :=
  Nat.le_trans (Nat.le_add_left _ _) s.room

/-! ### One phase -/

/-- Folded pieces of the text are replaced. -/
theorem replacement (s : Stage terminals source g text) (spells : Spells pieces text)
    (covers : Covers rules pieces) (fits : g.terminals + g.size + rules.length ≤ idSpace) :
    Replacement g text pieces rules :=
  ⟨s.arena.ordered, s.known, spells, covers, fits⟩

variable (s : Stage terminals source g text) (spells : Spells pieces text)
variable (covers : Covers rules pieces) (fits : g.terminals + g.size + rules.length ≤ idSpace)

include s spells covers

theorem length_expandRule_le {r : Rule} (h : r ∈ rules) :
    (g.expandRule r).length ≤ source.length := by
  have part := List.sublist_flatten_of_mem
    (List.mem_map_of_mem (f := Piece.text) ((covers.mem_iff r).mp h))
  rw [← List.flatMap_def, spells.flatMap_text] at part
  rw [Grammar.expandRule_eq_flatMap, ← s.expands]
  exact (part.flatMap g.expand).length_le

theorem inside_pushAll {r : Rule} (hr : r ∈ (g.pushAll rules).bareRules) :
    ((g.pushAll rules).expandRule r).length ≤ source.length := by
  have known : ∀ a ∈ r.operands, g.Known a := by
    intro a ha
    rw [Grammar.bareRules_pushAll, List.mem_append] at hr
    obtain old | new := hr
    · exact s.arena.ordered.known_of_mem old ha
    · exact (spells.soundAt s.known ((covers.mem_iff r).mp new)).operand_lt ha
  have agree : ∀ a ∈ r.operands, (g.pushAll rules).expand a = g.expand a := fun a ha =>
    Grammar.expand_pushAll_of_known (known a ha) rules
  rw [Grammar.bareRules_pushAll, List.mem_append] at hr
  rw [Grammar.expandRule_congr agree]
  obtain old | new := hr
  · exact s.inside r old
  · exact s.length_expandRule_le spells covers new

include fits

/-- Replacing the folded pieces leads to the next stage. -/
theorem fold :
    Stage terminals source (g.pushAll rules) (pieces.map (Naming.symbolOf g rules)) := by
  have replaced := s.replacement spells covers fits
  have paid := spells.length_add_foldedCount_le
  have few := covers.length_le
  have room := s.room
  refine
    { terminals_eq := by rw [Grammar.terminals_pushAll, s.terminals_eq]
      arena := ⟨replaced.ordered_pushAll, replaced.fits_pushAll⟩
      sized := s.sized.pushAll s.arena.ordered replaced.rising
      known := replaced.known_text
      expands := replaced.expands.trans s.expands
      room := ?_
      inside := fun r hr => s.inside_pushAll spells covers hr }
  rw [Grammar.size_pushAll, List.length_map]
  omega

theorem distinct_fold (differ : pieces.IsChain fun x y => x.first ≠ y.first) :
    Text.Distinct (pieces.map (Naming.symbolOf g rules)) :=
  (s.replacement spells covers fits).distinct differ

end Stage

end RunGrammar
