import Mathlib
import RunGrammar.Proofs.Format.Meaning
import RunGrammar.Proofs.Grammar.Trees

/-!
# Measures are kept

None of the measures depends on the numbers of the rules: derivation trees are as
high under other names, and as many rules are blocks. So every format keeps them.
The depth that is reported is the height of the derivation tree of the root.
-/

namespace RunGrammar

namespace Grammar

variable {σ : Equiv.Perm Symbol} {g h : Grammar} {v : Symbol}

/-- Under its new name a symbol is as high. -/
theorem Renumbers.height (ren : Renumbers σ g h) (o : g.Ordered) (o' : h.Ordered)
    (known : g.Known v) : h.height (σ v) = g.height v := by
  induction v using o.symbol_induction with
  | leaf v none =>
      have terminal := terminal_of_rule?_none known none
      have terminal' : v.toNat < h.terminals := ren.terminals.symm ▸ terminal
      rw [ren.fixes v terminal, height_of_rule?_none none,
        height_of_rule?_none (rule?_of_terminal terminal')]
  | node v r found sound ih =>
      have moved : h.rule? (σ v) = some (r.rename σ) := by simp only [ren.rule?, found, Option.map]
      have operand : ∀ a ∈ r.operands, h.height (σ a) = g.height a := fun a ha =>
        ih a ha (Nat.lt_trans (sound.operand_lt ha) known)
      rw [o.height_of_rule? found, o'.height_of_rule? moved]
      cases r with
      | pair a b =>
          simp only [Rule.rename, ruleHeight, operand a Rule.left_mem_operands,
            operand b Rule.right_mem_operands]
      | block a n =>
          simp only [Rule.rename, ruleHeight, operand a Rule.copied_mem_operands]

/-- Renumbering keeps all measures. -/
theorem Renumbers.measures (ren : Renumbers σ g h) (storable : g.Storable)
    (storable' : h.Storable) : h.measures = g.measures := by
  have depth : h.measures.depth = g.measures.depth := by
    rw [storable.ordered.depth_measures storable.known,
      storable'.ordered.depth_measures storable'.known, ren.root]
    cases root : g.root with
    | none => rfl
    | some v => exact ren.height storable.ordered storable'.ordered (storable.known v root)
  have length : h.textLength = g.textLength := by
    rw [textLength, textLength, ren.root]
    cases root : g.root with
    | none => rfl
    | some v =>
        exact ren.length storable.ordered storable'.ordered storable.sized storable'.sized
          (storable.known v root)
  calc
    h.measures = ⟨h.textLength, h.size, h.blocks, h.size - h.blocks, h.measures.depth⟩ := rfl
    _ = ⟨g.textLength, g.size, g.blocks, g.size - g.blocks, g.measures.depth⟩ := by
      rw [length, depth, ren.size, ren.blocks]
    _ = g.measures := rfl

end Grammar

/-- The depth of a sound grammar is zero without a root, and else the height of the derivation tree
of the root, which is the length of the longest chain of operands from the root to a terminal. It
comes back from every format, and so do the other measures, whatever stands in the field of a root
that is not there. -/
theorem Grammar.measures_specified {g : Grammar} (valid : g.validate = .ok ()) :
    (g.root = none → g.measures.depth = 0) ∧
      (∀ root, g.root = some root →
        (∃ t, g.Derives root t ∧ (∀ t', g.Derives root t' → t' = t) ∧
          t.leaves = g.derivedText ∧ g.measures.depth = t.height) ∧
        IsGreatest {n | ∃ c : Symbol, c.toNat < g.terminals ∧ g.Descends n root c}
          g.measures.depth) ∧
      (g.terminals + g.size ≤ idSpace → g.computeLengths = g →
        ∀ f : Format, f.Writes g (f.encode g) ∧ ∀ stored, f.Writes g stored →
          ∃ h, f.decode stored = .ok h ∧ h.measures = g.measures) := by
  obtain ⟨o, known⟩ := validate_eq_ok_iff.mp valid
  have depth := o.depth_measures known
  refine ⟨?_, ?_, ?_⟩
  · intro none
    rw [depth, none, Option.elim]
  · intro root found
    rw [found, Option.elim] at depth
    have inside := known root found
    obtain ⟨t, tree⟩ := o.exists_derives inside
    have text : t.leaves = g.derivedText := by
      rw [tree.leaves_eq o, derivedText_eq valid, found]
      exact (List.flatMap_singleton g.expand root).symm
    rw [depth]
    exact ⟨⟨t, tree, fun t' tree' => tree'.unique tree, text, (tree.height_eq o).symm⟩,
      o.isGreatest_height inside⟩
  · intro fits computed f
    have storable : g.Storable := ⟨valid, fits, (computeLengths_eq_self_iff o).mp computed⟩
    refine ⟨f.writes_encode g, ?_⟩
    intro stored writes
    obtain ⟨h, σ, decoded, ren, storable'⟩ := writes.decode storable
    exact ⟨h, decoded, ren.measures storable storable'⟩

/-- Two blocks and a pair on top of each other, with a length that is capped. -/
theorem Grammar.measures_specified_saturated :
    saturated.validate = .ok () ∧ saturated.terminals + saturated.size ≤ idSpace ∧
      saturated.computeLengths = saturated ∧ saturated.measures = ⟨lengthCap, 3, 2, 1, 3⟩ ∧
      IsGreatest {n | ∃ c : Symbol, c.toNat < 1 ∧ saturated.Descends n 3 c} 3 ∧
      ∀ f : Format, ∃ h, f.decode (f.encode saturated) = .ok h ∧
        h.measures = ⟨lengthCap, 3, 2, 1, 3⟩ := by
  have valid : saturated.validate = .ok () := by decide
  have fits : saturated.terminals + saturated.size ≤ idSpace := by decide
  have computed : saturated.computeLengths = saturated := by decide
  obtain ⟨_, tree, kept⟩ := Grammar.measures_specified valid
  have restored (f : Format) := (kept fits computed f).2 _ (f.writes_encode saturated)
  exact ⟨valid, fits, computed, rfl, (tree 3 rfl).2, restored⟩

end RunGrammar
