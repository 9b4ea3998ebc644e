import Mathlib
import RunGrammar.Grammar.Measures
import RunGrammar.Proofs.Grammar.Growth

/-!
# Heights

In a grammar in order the height of a symbol is one more than the largest height
of the operands of its rule. So it is determined by the rules up to the symbol,
and appending rules does not change it.

`heights` finds the heights of all rules in one forward pass. When it comes to a
rule, the heights of the operands are in the table already, and a terminal needs
no entry: before rule `k` the table answers for all symbols below that of `k`.
-/

namespace RunGrammar.Grammar

variable {g h : Grammar} {v : Symbol} {r : Rule}

/-- One more than the largest height of the operands. -/
def ruleHeight (g : Grammar) : Rule → Nat
  | .pair a b => 1 + max (g.height a) (g.height b)
  | .block a _ => 1 + g.height a

theorem height_of_rule?_none (h : g.rule? v = none) : g.height v = 0 := by
  rw [height, h]

/-- In order, no operand is left out of the height. -/
theorem Ordered.height_of_rule? (o : g.Ordered) (found : g.rule? v = some r) :
    g.height v = g.ruleHeight r := by
  have sound := o.soundAt found
  rw [height, found]
  cases r with
  | pair a b =>
      have first : a < v := UInt32.lt_iff_toNat_lt.mpr sound.1
      have second : b < v := UInt32.lt_iff_toNat_lt.mpr sound.2
      simp [ruleHeight, first, second]
  | block a n =>
      have first : a < v := UInt32.lt_iff_toNat_lt.mpr sound.1
      simp [ruleHeight, first]

theorem ruleHeight_le {n : Nat} (operands : ∀ a ∈ r.operands, g.height a ≤ n) :
    g.ruleHeight r ≤ n + 1 := by
  cases r with
  | pair a b =>
      have first := operands a Rule.left_mem_operands
      have second := operands b Rule.right_mem_operands
      rw [ruleHeight]
      omega
  | block a m =>
      have first := operands a Rule.copied_mem_operands
      rw [ruleHeight]
      omega

/-- A height depends on the rules of symbols up to the given one only. -/
theorem height_congr_upTo (v : Symbol)
    (agree : ∀ u : Symbol, u.toNat ≤ v.toNat → g.rule? u = h.rule? u) :
    g.height v = h.height v := by
  induction hn : v.toNat using Nat.strongRecOn generalizing v with
  | ind n ih =>
      have guarded : ∀ a : Symbol, (if a < v then g.height a else 0) =
          if a < v then h.height a else 0 := by
        intro a
        split
        · next ha =>
          have smaller : a.toNat < v.toNat := UInt32.lt_iff_toNat_lt.mp ha
          exact ih a.toNat (hn ▸ smaller) a
            (fun u hu => agree u (Nat.le_trans hu (Nat.le_of_lt smaller))) rfl
        · rfl
      rw [height, height, agree v (Nat.le_refl _)]
      simp only [guarded]

/-- Old symbols keep their height. -/
theorem height_pushAll_of_known (known : g.Known v) (rs : List Rule) :
    (g.pushAll rs).height v = g.height v :=
  height_congr_upTo v fun _ hu => rule?_pushAll_of_known (Nat.lt_of_le_of_lt hu known) rs

/-! ### The forward pass -/

variable {table : Array Nat} {k : Nat}

theorem tableHeight_of_terminal (early : v.toNat < g.terminals) (table : Array Nat) :
    g.tableHeight table v = 0 := by
  simp [tableHeight, isTerminal, early]

theorem tableHeight_of_le (late : g.terminals ≤ v.toNat) (table : Array Nat) :
    g.tableHeight table v = table.getD (v.toNat - g.terminals) 0 := by
  simp [tableHeight, isTerminal, Nat.not_lt.mpr late]

/-- The table has the heights of the first `k` rules. -/
structure HeightsBelow (g : Grammar) (table : Array Nat) (k : Nat) : Prop where
  size : table.size = k
  answers : ∀ v : Symbol, v.toNat < g.terminals + k → g.tableHeight table v = g.height v

theorem heightsBelow_empty (g : Grammar) : g.HeightsBelow #[] 0 where
  size := rfl
  answers v early := by
    rw [tableHeight_of_terminal early, height_of_rule?_none (rule?_of_terminal early)]

theorem HeightsBelow.tableRuleHeight (below : g.HeightsBelow table k)
    (sound : r.SoundAt (g.terminals + k)) : g.tableRuleHeight table r = g.ruleHeight r := by
  have operands : ∀ a ∈ r.operands, g.tableHeight table a = g.height a := fun a ha =>
    below.answers a (sound.operand_lt ha)
  cases r with
  | pair a b =>
      rw [Grammar.tableRuleHeight, operands a Rule.left_mem_operands,
        operands b Rule.right_mem_operands, ruleHeight]
  | block a n => rw [Grammar.tableRuleHeight, operands a Rule.copied_mem_operands, ruleHeight]

/-- The next entry is the height of the next rule. -/
theorem HeightsBelow.push (below : g.HeightsBelow table k) (o : g.Ordered) {entry : SizedRule}
    (stored : g.rules[k]? = some entry) :
    g.HeightsBelow (table.push (g.tableRuleHeight table entry.rule)) (k + 1) where
  size := by rw [Array.size_push, below.size]
  answers v before := by
    by_cases early : v.toNat < g.terminals
    · rw [tableHeight_of_terminal early, height_of_rule?_none (rule?_of_terminal early)]
    · have late := Nat.not_lt.mp early
      rw [tableHeight_of_le late, Array.getD_eq_getD_getElem?, Array.getElem?_push, below.size]
      by_cases new : v.toNat - g.terminals = k
      · have found : g.rule? v = some entry.rule := by
          rw [rule?, entry?_of_le late, new, stored, Option.map_some]
        rw [if_pos new, Option.getD_some, below.tableRuleHeight (o k entry stored),
          o.height_of_rule? found]
      · rw [if_neg new, ← Array.getD_eq_getD_getElem?, ← tableHeight_of_le late]
        exact below.answers v (by omega)

theorem Ordered.heightsBelow (o : g.Ordered) : g.HeightsBelow g.heights g.size := by
  apply Array.foldl_induction (fun k table => g.HeightsBelow table k) g.heightsBelow_empty
  intro i table below
  exact below.push o (Array.getElem?_eq_getElem i.isLt)

/-- On a grammar in order, one forward pass finds the height of every symbol. -/
theorem Ordered.tableHeight_heights (o : g.Ordered) (known : g.Known v) :
    g.tableHeight g.heights v = g.height v :=
  o.heightsBelow.answers v known

/-- The reported depth is the height of the root. -/
theorem Ordered.depth_measures (o : g.Ordered) (known : ∀ v, g.root = some v → g.Known v) :
    g.measures.depth = g.root.elim 0 g.height := by
  rw [measures]
  cases symbol : g.root with
  | none => rfl
  | some root => exact o.tableHeight_heights (known root symbol)

end RunGrammar.Grammar
