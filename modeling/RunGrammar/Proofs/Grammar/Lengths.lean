import Mathlib
import RunGrammar.Proofs.Grammar.Arena

/-!
# Recorded lengths

A length is recorded right when it is the length of the expansion, cut off at
`lengthCap`. Cutting off at every rule and cutting off once at the end give the
same number, so the forward pass of `computeLengths` records every length right
on a grammar in order. Right lengths are determined by the rules, hence
`ofRules` gives a grammar back when it is handed the rules of one.
-/

namespace RunGrammar.Grammar

variable {g h : Grammar} {v : Symbol} {r : Rule}

theorem rule?_eq (g : Grammar) (v : Symbol) :
    g.rule? v = if v.toNat < g.terminals then none else g.bareRules[v.toNat - g.terminals]? := by
  by_cases early : v.toNat < g.terminals
  · rw [rule?_of_terminal early, if_pos early]
  · rw [rule?, entry?_of_le (Nat.not_lt.mp early), if_neg early, bareRules, List.getElem?_map,
      Array.getElem?_toList]

/-- The symbol of rule `k` has rule `k`. -/
theorem Arena.rule?_ruleId (arena : g.Arena) {k : Nat} (found : g.bareRules[k]? = some r) :
    g.rule? (g.ruleId k) = some r := by
  have inside := (List.getElem?_eq_some_iff.mp found).1
  rw [length_bareRules] at inside
  rw [rule?_eq, arena.ruleId_toNat inside, if_neg (by omega), Nat.add_sub_cancel_left, found]

/-- An expansion depends on the rules of symbols up to the expanded one only. -/
theorem expand_congr_upTo (v : Symbol)
    (agree : ∀ u : Symbol, u.toNat ≤ v.toNat → g.rule? u = h.rule? u) :
    g.expand v = h.expand v := by
  induction hn : v.toNat using Nat.strongRecOn generalizing v with
  | ind n ih =>
      have below : ∀ a : Symbol, a < v → g.expand a = h.expand a := by
        intro a ha
        have smaller : a.toNat < v.toNat := UInt32.lt_iff_toNat_lt.mp ha
        exact ih a.toNat (hn ▸ smaller) a
          (fun u hu => agree u (Nat.le_trans hu (Nat.le_of_lt smaller))) rfl
      have guarded : ∀ a : Symbol, (if a < v then g.expand a else []) =
          if a < v then h.expand a else [] := by
        intro a
        split
        · exact below a ‹_›
        · rfl
      rw [expand, expand, agree v (Nat.le_refl _)]
      simp only [guarded]

theorem expand_congr (agree : ∀ u, g.rule? u = h.rule? u) (v : Symbol) :
    g.expand v = h.expand v :=
  expand_congr_upTo v fun u _ => agree u

theorem expandRule_congr (agree : ∀ u ∈ r.operands, g.expand u = h.expand u) :
    g.expandRule r = h.expandRule r := by
  cases r with
  | pair a b =>
      simp only [expandRule, agree a Rule.left_mem_operands, agree b Rule.right_mem_operands]
  | block a n => simp only [expandRule, agree a Rule.copied_mem_operands]

/-- Every recorded length is that of the expansion, as far as lengths are represented. -/
def Sized (g : Grammar) : Prop :=
  ∀ (k : Nat) (entry : SizedRule),
    g.rules[k]? = some entry → entry.length = min (g.expandRule entry.rule).length lengthCap

/-- Grammars with the same rules, apart from what is recorded as lengths. -/
structure SameRules (g h : Grammar) : Prop where
  terminals : g.terminals = h.terminals
  root : g.root = h.root
  bareRules : g.bareRules = h.bareRules

namespace SameRules

theorem symm (s : SameRules g h) : SameRules h g :=
  ⟨s.terminals.symm, s.root.symm, s.bareRules.symm⟩

theorem trans {k : Grammar} (s : SameRules g h) (t : SameRules h k) : SameRules g k :=
  ⟨s.terminals.trans t.terminals, s.root.trans t.root, s.bareRules.trans t.bareRules⟩

theorem rule? (s : SameRules g h) (v : Symbol) : g.rule? v = h.rule? v := by
  rw [rule?_eq, rule?_eq, s.terminals, s.bareRules]

theorem size (s : SameRules g h) : g.size = h.size := by
  simpa [Grammar.bareRules, Grammar.size] using congrArg List.length s.bareRules

theorem expandRule (s : SameRules g h) (r : Rule) : g.expandRule r = h.expandRule r :=
  expandRule_congr fun u _ => expand_congr s.rule? u

theorem rule_eq (s : SameRules g h) {k : Nat} {x y : SizedRule} (hx : g.rules[k]? = some x)
    (hy : h.rules[k]? = some y) : x.rule = y.rule := by
  simpa [Grammar.bareRules, hx, hy] using congrArg (·[k]?) s.bareRules

theorem ordered (s : SameRules g h) (o : g.Ordered) : h.Ordered := by
  intro k y hy
  have inside : k < g.rules.size := by
    have : k < h.rules.size := (Array.getElem?_eq_some_iff.mp hy).1
    have : g.rules.size = h.rules.size := s.size
    omega
  have hx : g.rules[k]? = some g.rules[k] := Array.getElem?_eq_getElem inside
  have sound := o k _ hx
  rwa [s.terminals, s.rule_eq hx hy] at sound

/-- Right lengths are determined by the rules. -/
theorem eq_of_sized (s : SameRules g h) (hg : g.Sized) (hh : h.Sized) : g = h := by
  have rules : g.rules = h.rules := by
    apply Array.ext s.size
    intro k hk hk'
    have hx : g.rules[k]? = some g.rules[k] := Array.getElem?_eq_getElem hk
    have hy : h.rules[k]? = some h.rules[k] := Array.getElem?_eq_getElem hk'
    have rule := s.rule_eq hx hy
    have length : (g.rules[k]).length = (h.rules[k]).length := by
      rw [hg k _ hx, hh k _ hy, s.expandRule, rule]
    cases hgk : g.rules[k]
    cases hhk : h.rules[k]
    rw [hgk, hhk] at rule length
    simp_all
  obtain ⟨t, rs, v⟩ := g
  obtain ⟨t', rs', v'⟩ := h
  have := s.terminals
  have := s.root
  simp_all

end SameRules

theorem min_add_min (x y cap : Nat) : min (min x cap + min y cap) cap = min (x + y) cap := by
  omega

theorem min_mul_min (x n cap : Nat) : min (min x cap * n) cap = min (x * n) cap := by
  obtain short | long := Nat.le_total x cap
  · rw [Nat.min_eq_left short]
  · rw [Nat.min_eq_right long]
    cases n with
    | zero => simp
    | succ n =>
        have := Nat.mul_le_mul_right (n + 1) long
        have : cap ≤ cap * (n + 1) := Nat.le_mul_of_pos_right cap (Nat.succ_pos n)
        omega

/-- The length of a rule is recorded right if those of its operands are. -/
theorem ruleLength_eq
    (operands : ∀ a ∈ r.operands, g.length a = min (g.expand a).length lengthCap) :
    g.ruleLength r = min (g.expandRule r).length lengthCap := by
  cases r with
  | pair a b =>
      rw [ruleLength, operands a Rule.left_mem_operands, operands b Rule.right_mem_operands,
        min_add_min, expandRule, List.length_append]
  | block a n =>
      rw [ruleLength, operands a Rule.copied_mem_operands, min_mul_min]
      simp [expandRule, Nat.mul_comm]

theorem length_of_terminal (early : v.toNat < g.terminals) : g.length v = 1 := by
  simp [length, isTerminal, early]

theorem length_of_le (late : g.terminals ≤ v.toNat) :
    g.length v = (g.rules[v.toNat - g.terminals]?).elim 0 (·.length) := by
  rw [length, entry?_of_le late]
  simp [isTerminal, Nat.not_lt.mpr late]

theorem length_of_terminal_expand (early : v.toNat < g.terminals) :
    g.length v = min (g.expand v).length lengthCap := by
  rw [length_of_terminal early, expand_of_terminal early]
  rfl

/-- The lengths of the first `n` rules are right. -/
def SizedBelow (g : Grammar) (n : Nat) : Prop :=
  ∀ (k : Nat) (entry : SizedRule), k < n →
    g.rules[k]? = some entry → entry.length = min (g.expandRule entry.rule).length lengthCap

theorem SizedBelow.length_eq {n : Nat} (sized : g.SizedBelow n) (o : g.Ordered) (hn : n ≤ g.size)
    (early : v.toNat < g.terminals + n) : g.length v = min (g.expand v).length lengthCap := by
  by_cases terminal : v.toNat < g.terminals
  · exact length_of_terminal_expand terminal
  · have late := Nat.not_lt.mp terminal
    have inside : v.toNat - g.terminals < g.size := by omega
    have entry := Array.getElem?_eq_getElem inside
    have found : g.rule? v = some (g.rules[v.toNat - g.terminals]).rule := by
      rw [rule?, entry?_of_le late, entry]
      rfl
    rw [length_of_le late, entry, expand_of_rule? o found]
    exact sized _ _ (by omega) entry

/-- With right lengths, what is recorded for a symbol is the length of its expansion. -/
theorem Sized.length_eq (sized : g.Sized) (o : g.Ordered) (known : g.Known v) :
    g.length v = min (g.expand v).length lengthCap := by
  have below : g.SizedBelow g.size := fun k entry _ => sized k entry
  exact below.length_eq o (Nat.le_refl _) known

/-- The length that a rule is stored with is that of the expansion of its symbol. -/
theorem Sized.entry_length (sized : g.Sized) (o : g.Ordered)
    (fits : g.terminals + g.size ≤ idSpace) {k : Nat} {entry : SizedRule}
    (stored : g.rules[k]? = some entry) :
    entry.length = min (g.expand (g.ruleId k)).length lengthCap := by
  have inside : k < g.size := (Array.getElem?_eq_some_iff.mp stored).1
  have found : g.rule? (g.ruleId k) = some entry.rule := by
    rw [rule?, entry?_ruleId (by omega), stored, Option.map_some]
  rw [expand_of_rule? o found]
  exact sized k entry stored

/-! ### The forward pass -/

theorem sameRules_refreshLength (g : Grammar) (k : Nat) : SameRules (g.refreshLength k) g := by
  unfold refreshLength
  cases found : g.rules[k]? with
  | none => exact ⟨rfl, rfl, rfl⟩
  | some entry =>
      refine ⟨rfl, rfl, ?_⟩
      apply List.ext_getElem?
      intro j
      simp only [bareRules, List.getElem?_map, Array.getElem?_toList, Array.getElem?_setIfInBounds]
      by_cases same : k = j
      · subst same
        obtain ⟨inside, rfl⟩ := Array.getElem?_eq_some_iff.mp found
        simp [inside]
      · simp [same]

theorem refreshLength_getElem?_of_ne {k j : Nat} (hne : k ≠ j) :
    (g.refreshLength k).rules[j]? = g.rules[j]? := by
  unfold refreshLength
  cases g.rules[k]? with
  | none => rfl
  | some entry => simp [hne]

theorem refreshLength_getElem?_self {k : Nat} {entry : SizedRule}
    (found : g.rules[k]? = some entry) :
    (g.refreshLength k).rules[k]? = some ⟨entry.rule, g.ruleLength entry.rule⟩ := by
  obtain ⟨inside, rfl⟩ := Array.getElem?_eq_some_iff.mp found
  simp [refreshLength, inside]

/-- The pass keeps what it has recorded, and the next length follows from that. -/
theorem SizedBelow.refreshLength {n : Nat} (sized : g.SizedBelow n) (o : g.Ordered) :
    (g.refreshLength n).SizedBelow (n + 1) := by
  intro k entry hk found
  rw [(sameRules_refreshLength g n).expandRule]
  by_cases same : n = k
  · subst same
    cases old : g.rules[n]? with
    | none =>
        rw [Grammar.refreshLength, old] at found
        rw [old] at found
        cases found
    | some x =>
        rw [refreshLength_getElem?_self old] at found
        cases found
        have inside := (Array.getElem?_eq_some_iff.mp old).1
        apply ruleLength_eq
        intro a ha
        exact sized.length_eq o (Nat.le_of_lt inside) ((o n x old).operand_lt ha)
  · rw [refreshLength_getElem?_of_ne same] at found
    exact sized k entry (by omega) found

theorem refreshLengths_upTo (o : g.Ordered) (n : Nat) :
    SameRules ((List.range n).foldl Grammar.refreshLength g) g ∧
      ((List.range n).foldl Grammar.refreshLength g).SizedBelow n := by
  induction n with
  | zero => exact ⟨⟨rfl, rfl, rfl⟩, fun k entry hk => absurd hk (Nat.not_lt_zero k)⟩
  | succ n ih =>
      obtain ⟨same, sized⟩ := ih
      rw [List.range_succ, List.foldl_append]
      exact ⟨(sameRules_refreshLength _ n).trans same, sized.refreshLength (same.symm.ordered o)⟩

theorem sameRules_computeLengths (o : g.Ordered) : SameRules g.computeLengths g :=
  (refreshLengths_upTo o g.size).1

/-- On a grammar in order, one forward pass records every length right. -/
theorem sized_computeLengths (o : g.Ordered) : g.computeLengths.Sized := by
  obtain ⟨same, sized⟩ := refreshLengths_upTo o g.size
  intro k entry found
  have inside := (Array.getElem?_eq_some_iff.mp found).1
  exact sized k entry (same.size ▸ inside) found

theorem computeLengths_eq_self_iff (o : g.Ordered) : g.computeLengths = g ↔ g.Sized := by
  constructor
  · intro h
    exact h ▸ sized_computeLengths o
  · intro sized
    exact (sameRules_computeLengths o).eq_of_sized (sized_computeLengths o) sized

/-- The rules of a sound grammar with right lengths give that grammar back. -/
theorem ofRules_bareRules (valid : g.validate = .ok ()) (fits : g.terminals + g.size ≤ idSpace)
    (computed : g.computeLengths = g) : ofRules g.terminals g.bareRules g.root = .ok g := by
  obtain ⟨o, known⟩ := validate_eq_ok_iff.mp valid
  let bare : Grammar :=
    { terminals := g.terminals, rules := (g.bareRules.map fun r => ⟨r, 1⟩).toArray, root := g.root }
  have same : SameRules bare g := ⟨rfl, rfl, by simp [bare, bareRules, Function.comp_def]⟩
  have ordered : bare.Ordered := same.symm.ordered o
  have passed : bare.validate = .ok () := by
    rw [validate_eq_ok_iff]
    refine ⟨ordered, ?_⟩
    intro v hv
    show v.toNat < bare.terminals + bare.size
    rw [same.size, same.terminals]
    exact known v hv
  have lengths : bare.computeLengths = g :=
    ((sameRules_computeLengths ordered).trans same).eq_of_sized (sized_computeLengths ordered)
      ((computeLengths_eq_self_iff o).mp computed)
  have ids : checkIdSpace g.terminals g.bareRules.length = .ok () := by
    simp [checkIdSpace, fitsIdSpace, length_bareRules, fits]
  rw [ofRules, ids]
  show (bare.validate >>= fun _ => pure bare.computeLengths) = .ok g
  rw [passed, lengths]
  rfl

end RunGrammar.Grammar

namespace RunGrammar

/-- A grammar whose last length is past the largest one that is represented. -/
def saturated : Grammar where
  terminals := 1
  rules := #[⟨.block 0 4294967295, 4294967295⟩, ⟨.block 1 4294967295, 18446744065119617025⟩,
    ⟨.pair 2 2, lengthCap⟩]
  root := some 3

/-- A letter `2 ^ 62` times. -/
def monotone : Grammar where
  terminals := 1
  rules := #[⟨.block 0 2147483648, 2147483648⟩, ⟨.block 1 2147483648, 4611686018427387904⟩]
  root := some 2

end RunGrammar
