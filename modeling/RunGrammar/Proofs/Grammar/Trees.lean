import Mathlib
import RunGrammar.Proofs.Grammar.Heights
import RunGrammar.Proofs.Grammar.Reachability

/-!
# Derivation trees

Below a symbol its derivation tree has the trees of the operands of its rule, and
a terminal is a leaf. Every symbol of a sound grammar has exactly one such tree,
whose leaves are its expansion and whose height is `height`. A chain of operands
follows one branch of the tree, so the longest chain that ends in a terminal has
as many steps as the tree is high.
-/

namespace RunGrammar

/-- How a symbol derives its text. -/
inductive DerivationTree where
  | leaf (c : Symbol)
  | pair (v : Symbol) (left right : DerivationTree)
  /-- A number of copies of one tree. -/
  | block (v : Symbol) (count : UInt32) (copy : DerivationTree)
deriving DecidableEq, Repr

namespace DerivationTree

/-- The largest number of steps from the top to a leaf. -/
def height : DerivationTree → Nat
  | leaf _ => 0
  | pair _ left right => 1 + max left.height right.height
  | block _ _ copy => 1 + copy.height

/-- The leaves from left to right. -/
def leaves : DerivationTree → Text
  | leaf c => [c]
  | pair _ left right => left.leaves ++ right.leaves
  | block _ count copy => (List.replicate count.toNat copy.leaves).flatten

end DerivationTree

namespace Grammar

variable {g : Grammar} {v a c : Symbol} {r : Rule} {n : Nat} {s t : DerivationTree}

/-- The tree is the derivation tree of this symbol. -/
inductive Derives (g : Grammar) : Symbol → DerivationTree → Prop where
  | terminal {c : Symbol} (terminal : c.toNat < g.terminals) : Derives g c (.leaf c)
  | pair {v a b : Symbol} {s t : DerivationTree} (found : g.rule? v = some (.pair a b))
    (left : Derives g a s) (right : Derives g b t) : Derives g v (.pair v s t)
  | block {v a : Symbol} {n : UInt32} {t : DerivationTree} (found : g.rule? v = some (.block a n))
    (copy : Derives g a t) : Derives g v (.block v n t)

/-- Every symbol of a sound grammar has a derivation tree. -/
theorem Ordered.exists_derives (o : g.Ordered) (known : g.Known v) : ∃ t, g.Derives v t := by
  induction v using o.symbol_induction with
  | leaf v none => exact ⟨_, .terminal (terminal_of_rule?_none known none)⟩
  | node v r found sound ih =>
      have operand : ∀ a ∈ r.operands, ∃ t, g.Derives a t := fun a ha =>
        ih a ha (Nat.lt_trans (sound.operand_lt ha) known)
      cases r with
      | pair a b =>
          obtain ⟨s, left⟩ := operand a Rule.left_mem_operands
          obtain ⟨t, right⟩ := operand b Rule.right_mem_operands
          exact ⟨_, .pair found left right⟩
      | block a n =>
          obtain ⟨t, copy⟩ := operand a Rule.copied_mem_operands
          exact ⟨_, .block found copy⟩

theorem rule?_ne_of_terminal (terminal : v.toNat < g.terminals) : g.rule? v ≠ some r := by
  rw [rule?_of_terminal terminal]
  exact nofun

/-- There is one tree. -/
theorem Derives.unique (h : g.Derives v s) (h' : g.Derives v t) : s = t := by
  induction h generalizing t with
  | terminal terminal =>
      cases h' with
      | terminal => rfl
      | pair found | block found => exact absurd found (rule?_ne_of_terminal terminal)
  | pair found _ _ left right =>
      cases h' with
      | terminal terminal => exact absurd found (rule?_ne_of_terminal terminal)
      | pair found' left' right' =>
          cases found.symm.trans found'
          rw [left left', right right']
      | block found' => cases found.symm.trans found'
  | block found _ copy =>
      cases h' with
      | terminal terminal => exact absurd found (rule?_ne_of_terminal terminal)
      | pair found' => cases found.symm.trans found'
      | block found' copy' =>
          cases found.symm.trans found'
          rw [copy copy']

theorem Derives.height_eq (h : g.Derives v t) (o : g.Ordered) : t.height = g.height v := by
  induction h with
  | terminal terminal => exact (height_of_rule?_none (rule?_of_terminal terminal)).symm
  | pair found _ _ left right =>
      rw [o.height_of_rule? found, ruleHeight, DerivationTree.height, left, right]
  | block found _ copy => rw [o.height_of_rule? found, ruleHeight, DerivationTree.height, copy]

/-- The tree derives the expansion of its symbol. -/
theorem Derives.leaves_eq (h : g.Derives v t) (o : g.Ordered) : t.leaves = g.expand v := by
  induction h with
  | terminal terminal => exact (expand_of_terminal terminal).symm
  | pair found _ _ left right =>
      rw [expand_of_rule? o found, expandRule, DerivationTree.leaves, left, right]
  | block found _ copy => rw [expand_of_rule? o found, expandRule, DerivationTree.leaves, copy]

/-! ### Chains of operands -/

/-- A chain of `n` steps, each to an operand, leads from one symbol to another. -/
inductive Descends (g : Grammar) : Nat → Symbol → Symbol → Prop where
  | here (v : Symbol) : Descends g 0 v v
  | down {n : Nat} {v a c : Symbol} (refers : g.Refers v a) (rest : Descends g n a c) :
    Descends g (n + 1) v c

theorem Ordered.height_lt_of_refers (o : g.Ordered) (refers : g.Refers v a) :
    g.height a < g.height v := by
  obtain ⟨r, found, operand⟩ := refers
  rw [o.height_of_rule? found]
  cases r with
  | pair x y =>
      rw [ruleHeight]
      obtain rfl | rfl := List.mem_pair.mp operand <;> omega
  | block x n =>
      rw [List.mem_singleton.mp operand, ruleHeight]
      omega

/-- A rule has an operand of the next smaller height. -/
theorem Ordered.exists_refers_height (o : g.Ordered) (found : g.rule? v = some r) :
    ∃ a, g.Refers v a ∧ g.height v = g.height a + 1 := by
  have value := o.height_of_rule? found
  cases r with
  | pair a b =>
      rw [ruleHeight, Nat.add_comm] at value
      obtain larger | larger := Nat.le_total (g.height a) (g.height b)
      · rw [Nat.max_eq_right larger] at value
        exact ⟨b, ⟨_, found, by simp [Rule.operands]⟩, value⟩
      · rw [Nat.max_eq_left larger] at value
        exact ⟨a, ⟨_, found, by simp [Rule.operands]⟩, value⟩
  | block a n =>
      rw [ruleHeight, Nat.add_comm] at value
      exact ⟨a, ⟨_, found, by simp [Rule.operands]⟩, value⟩

/-- No chain is longer than the symbol is high. -/
theorem Descends.le_height (chain : g.Descends n v c) (o : g.Ordered) : n ≤ g.height v := by
  induction chain with
  | here v => exact Nat.zero_le _
  | down refers _ ih => exact Nat.lt_of_le_of_lt ih (o.height_lt_of_refers refers)

/-- Down the higher operand every time, the chain to a terminal is that long. -/
theorem Ordered.exists_descends_height (o : g.Ordered) (known : g.Known v) :
    ∃ c : Symbol, c.toNat < g.terminals ∧ g.Descends (g.height v) v c := by
  induction v using o.symbol_induction with
  | leaf v none =>
      rw [height_of_rule?_none none]
      exact ⟨v, terminal_of_rule?_none known none, .here v⟩
  | node v r found sound ih =>
      obtain ⟨a, refers, next⟩ := o.exists_refers_height found
      obtain ⟨r', found', operand⟩ := refers
      cases found.symm.trans found'
      obtain ⟨c, terminal, chain⟩ := ih a operand (Nat.lt_trans (sound.operand_lt operand) known)
      rw [next]
      exact ⟨c, terminal, .down ⟨r, found, operand⟩ chain⟩

/-- The height is the length of the longest chain of operands that ends in a terminal. -/
theorem Ordered.isGreatest_height (o : g.Ordered) (known : g.Known v) :
    IsGreatest {n | ∃ c : Symbol, c.toNat < g.terminals ∧ g.Descends n v c} (g.height v) := by
  constructor
  · exact o.exists_descends_height known
  · rintro n ⟨c, _, chain⟩
    exact chain.le_height o

end Grammar

end RunGrammar
