import Mathlib
import RunGrammar.Proofs.Grammar.Growth

/-!
# Reachable symbols

A symbol refers to the operands of its rule, and reaches whatever is found by
following references. In a grammar in order the terminals that a symbol reaches
are exactly those of its expansion: every operand contributes at least one copy.
Appending rules takes no reference away.
-/

namespace RunGrammar.Grammar

variable {g : Grammar} {v a : Symbol} {r : Rule}

/-- `a` is an operand of the rule of `v`. -/
def Refers (g : Grammar) (v a : Symbol) : Prop := ∃ r, g.rule? v = some r ∧ a ∈ r.operands

/-- `a` is reached from `v` through operands, in any number of steps. -/
def Reaches (g : Grammar) : Symbol → Symbol → Prop := Relation.ReflTransGen g.Refers

theorem Refers.pushAll (h : g.Refers v a) (rules : List Rule) : (g.pushAll rules).Refers v a := by
  obtain ⟨r, found, operand⟩ := h
  exact ⟨r, (rule?_pushAll_of_known (known_of_rule? found) rules).trans found, operand⟩

theorem Reaches.pushAll (h : g.Reaches v a) (rules : List Rule) : (g.pushAll rules).Reaches v a :=
  Relation.ReflTransGen.mono (fun _ _ refers => Refers.pushAll refers rules) v a h

/-- Every operand of a sound rule contributes its expansion. -/
theorem mem_expandRule_of_operand {id : Nat} (sound : r.SoundAt id) (ha : a ∈ r.operands)
    {c : Symbol} (hc : c ∈ g.expand a) : c ∈ g.expandRule r := by
  cases r with
  | pair x y =>
      rw [expandRule, List.mem_append]
      obtain rfl | rfl := List.mem_pair.mp ha
      · exact .inl hc
      · exact .inr hc
  | block x n =>
      rw [List.mem_singleton.mp ha] at hc
      have copies : n.toNat ≠ 0 := by
        have := sound.2
        omega
      exact List.mem_flatten.mpr ⟨_, List.mem_replicate.mpr ⟨copies, rfl⟩, hc⟩

/-- The terminals that a symbol reaches are those of its expansion. -/
theorem Ordered.reaches_iff_mem_expand (o : g.Ordered) {c : Symbol}
    (terminal : c.toNat < g.terminals) : g.Reaches v c ↔ c ∈ g.expand v := by
  constructor
  · intro reached
    induction reached using Relation.ReflTransGen.head_induction_on with
    | refl => simp [expand_of_terminal terminal]
    | head refers _ ih =>
        obtain ⟨r, found, operand⟩ := refers
        rw [expand_of_rule? o found]
        exact mem_expandRule_of_operand (o.soundAt found) operand ih
  · intro member
    induction v using o.symbol_induction with
    | leaf v found =>
        rw [expand_of_rule?_none found, List.mem_singleton] at member
        rw [member]
        exact Relation.ReflTransGen.refl
    | node v r found sound ih =>
        rw [expand_of_rule? o found] at member
        obtain ⟨a, operand, inside⟩ := exists_operand_of_mem_expandRule member
        exact Relation.ReflTransGen.head ⟨r, found, operand⟩ (ih a operand inside)

end RunGrammar.Grammar
