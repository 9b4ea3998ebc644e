import Mathlib
import RunGrammar.Grammar.Expansion
import RunGrammar.Proofs.Failing

/-!
# The arena order

`validate` is a test on data. Here its answer is turned into the order that
proofs use: every operand is smaller than the id of its rule, every block has at
least two copies, and the root is a symbol of the grammar.

The order makes the derivation trees finite. `Ordered.symbol_induction` is the
induction over them, and `expand_of_rule?` removes the guards from the recursion
of `expand`. An id determines its rule only while all ids are different, so an
arena also fits into the id space.
-/

namespace RunGrammar

/-- A rule may have this id: its operands come before it, and it has enough copies. -/
def Rule.SoundAt (id : Nat) : Rule → Prop
  | .pair a b => a.toNat < id ∧ b.toNat < id
  | .block a n => a.toNat < id ∧ 2 ≤ n.toNat

namespace Rule

theorem SoundAt.operand_lt {id : Nat} {r : Rule} (h : r.SoundAt id) {v : Symbol}
    (hv : v ∈ r.operands) : v.toNat < id := by
  cases r with
  | pair a b =>
      obtain rfl | rfl := List.mem_pair.mp hv
      · exact h.1
      · exact h.2
  | block a n =>
      rw [List.mem_singleton.mp hv]
      exact h.1

theorem SoundAt.mono {id id' : Nat} {r : Rule} (h : r.SoundAt id) (hle : id ≤ id') :
    r.SoundAt id' := by
  cases r with
  | pair a b => exact ⟨Nat.lt_of_lt_of_le h.1 hle, Nat.lt_of_lt_of_le h.2 hle⟩
  | block a n => exact ⟨Nat.lt_of_lt_of_le h.1 hle, h.2⟩

theorem maxOperand_lt_iff {id : Nat} {r : Rule} :
    r.maxOperand.toNat < id ↔ ∀ v ∈ r.operands, v.toNat < id := by
  cases r with
  | pair a b =>
      simp only [maxOperand, operands, List.mem_cons, List.not_mem_nil, or_false,
        forall_eq_or_imp, forall_eq]
      split <;> rename_i h <;> rw [UInt32.lt_iff_toNat_lt] at h <;> omega
  | block a n => simp [maxOperand, operands]

end Rule

namespace Grammar

/-- A terminal or the symbol of a rule. -/
def Known (g : Grammar) (v : Symbol) : Prop := v.toNat < g.terminals + g.size

/-- The symbol of rule `k`. -/
def ruleId (g : Grammar) (k : Nat) : Symbol := .ofNat (g.terminals + k)

/-- Every rule may have the id that its place gives it. -/
def Ordered (g : Grammar) : Prop :=
  ∀ (k : Nat) (entry : SizedRule),
    g.rules[k]? = some entry → entry.rule.SoundAt (g.terminals + k)

/-- The rules are in order, and no two symbols share an id. -/
structure Arena (g : Grammar) : Prop where
  ordered : g.Ordered
  fits : g.terminals + g.size ≤ idSpace

variable {g : Grammar} {v : Symbol} {r : Rule}

theorem length_bareRules (g : Grammar) : g.bareRules.length = g.size := by
  simp [bareRules, size]

theorem blocks_eq_countP (g : Grammar) : g.blocks = g.bareRules.countP (·.isBlock) := by
  simp [blocks, bareRules, List.countP_map, Function.comp_def,
    ← Array.countP_toList]

theorem blocks_le_size (g : Grammar) : g.blocks ≤ g.size := by
  rw [blocks_eq_countP, ← g.length_bareRules]
  exact List.countP_le_length

theorem checkRule_eq_ok_iff {id : Nat} : checkRule id r = .ok () ↔ r.SoundAt id := by
  by_cases early : r.maxOperand.toNat < id
  · have passed : ¬ id ≤ r.maxOperand.toNat := Nat.not_le.mpr early
    have operands := Rule.maxOperand_lt_iff.mp early
    cases r with
    | pair a b =>
        have sound : (Rule.pair a b).SoundAt id :=
          ⟨operands a Rule.left_mem_operands, operands b Rule.right_mem_operands⟩
        simp [checkRule, passed, sound]
    | block a n =>
        have known : a.toNat < id := operands a Rule.copied_mem_operands
        by_cases short : n < 2
        · have few : n.toNat < 2 := by simpa [UInt32.lt_iff_toNat_lt] using short
          simp [checkRule, passed, short, Rule.SoundAt, few]
        · have enough : 2 ≤ n.toNat := by simpa [UInt32.le_iff_toNat_le] using short
          simp [checkRule, passed, short, Rule.SoundAt, known, enough]
  · have unsound : ¬ r.SoundAt id := fun h =>
      early (Rule.maxOperand_lt_iff.mpr fun v hv => h.operand_lt hv)
    simp [checkRule, Nat.not_lt.mp early, unsound]

theorem checkRoot_eq_ok_iff : g.checkRoot = .ok () ↔ ∀ v, g.root = some v → g.Known v := by
  unfold checkRoot
  cases g.root with
  | none => simp
  | some root => by_cases h : root.toNat < g.terminals + g.size <;> simp [Known, h]

/-- The test passes exactly on grammars whose rules are in order and whose root is known. -/
theorem validate_eq_ok_iff :
    g.validate = .ok () ↔ g.Ordered ∧ ∀ v, g.root = some v → g.Known v := by
  rw [validate, Failing.bind_eq_ok_iff, ← checkRoot_eq_ok_iff]
  constructor
  · rintro ⟨_, rules, root⟩
    rw [Failing.forM_eq_ok_iff] at rules
    refine ⟨?_, root⟩
    intro k entry found
    have member : (entry, k) ∈ g.rules.toList.zipIdx := by
      simpa [List.mem_zipIdx_iff_getElem?] using found
    exact checkRule_eq_ok_iff.mp (rules (entry, k) member)
  · rintro ⟨ordered, root⟩
    refine ⟨(), ?_, root⟩
    rw [Failing.forM_eq_ok_iff]
    rintro ⟨entry, k⟩ member
    have found : g.rules[k]? = some entry := by
      simpa [List.mem_zipIdx_iff_getElem?] using member
    exact checkRule_eq_ok_iff.mpr (ordered k entry found)

theorem rule?_of_terminal (h : v.toNat < g.terminals) : g.rule? v = none := by
  simp [rule?, entry?, isTerminal, h]

theorem entry?_of_le (h : g.terminals ≤ v.toNat) :
    g.entry? v = g.rules[v.toNat - g.terminals]? := by
  have late : g.isTerminal v = false := by simp [isTerminal, Nat.not_lt.mpr h]
  unfold entry?
  rw [late]
  rfl

theorem terminals_le_of_rule? (h : g.rule? v = some r) : g.terminals ≤ v.toNat := by
  by_contra early
  rw [rule?_of_terminal (Nat.not_le.mp early)] at h
  cases h

theorem known_of_rule? (h : g.rule? v = some r) : g.Known v := by
  have late := terminals_le_of_rule? h
  rw [rule?, entry?_of_le late, Option.map_eq_some_iff] at h
  obtain ⟨entry, found, _⟩ := h
  have inside : v.toNat - g.terminals < g.size := (Array.getElem?_eq_some_iff.mp found).1
  show v.toNat < g.terminals + g.size
  omega

theorem rule?_isSome_iff : (g.rule? v).isSome ↔ g.terminals ≤ v.toNat ∧ g.Known v := by
  by_cases h : v.toNat < g.terminals
  · simp [rule?_of_terminal h, Nat.not_le.mpr h]
  · have late := Nat.not_lt.mp h
    simp only [rule?, entry?_of_le late, Option.isSome_map, late, true_and, Known, size]
    rw [isSome_getElem?]
    omega

/-- A known symbol without a rule is a terminal. -/
theorem terminal_of_rule?_none (known : g.Known v) (none : g.rule? v = none) :
    v.toNat < g.terminals := by
  by_contra late
  have some := rule?_isSome_iff.mpr ⟨Nat.not_lt.mp late, known⟩
  rw [none] at some
  cases some

theorem Ordered.soundAt (h : g.Ordered) (found : g.rule? v = some r) : r.SoundAt v.toNat := by
  have late := terminals_le_of_rule? found
  rw [rule?, entry?_of_le late, Option.map_eq_some_iff] at found
  obtain ⟨entry, found, rfl⟩ := found
  have sound := h _ entry found
  rwa [Nat.add_sub_cancel' late] at sound

/-- The operands of all rules are symbols of the grammar. -/
theorem Ordered.known_of_mem (h : g.Ordered) (hr : r ∈ g.bareRules) {a : Symbol}
    (ha : a ∈ r.operands) : g.Known a := by
  obtain ⟨entry, member, rfl⟩ := List.mem_map.mp hr
  obtain ⟨k, found⟩ := List.getElem?_of_mem member
  rw [Array.getElem?_toList] at found
  have inside : k < g.size := (Array.getElem?_eq_some_iff.mp found).1
  have before := (h k entry found).operand_lt ha
  show a.toNat < g.terminals + g.size
  omega

theorem ruleId_toNat {k : Nat} (h : g.terminals + k < idSpace) :
    (g.ruleId k).toNat = g.terminals + k := by
  rw [ruleId, UInt32.toNat_ofNat']
  exact Nat.mod_eq_of_lt h

theorem entry?_ruleId {k : Nat} (h : g.terminals + k < idSpace) :
    g.entry? (g.ruleId k) = g.rules[k]? := by
  have value := ruleId_toNat h
  rw [entry?_of_le (by omega), value, Nat.add_sub_cancel_left]

theorem Arena.ruleId_toNat (arena : g.Arena) {k : Nat} (h : k < g.size) :
    (g.ruleId k).toNat = g.terminals + k := by
  have fits := arena.fits
  exact Grammar.ruleId_toNat (by omega)

theorem Arena.known_ruleId (arena : g.Arena) {k : Nat} (h : k < g.size) :
    g.Known (g.ruleId k) := by
  show (g.ruleId k).toNat < g.terminals + g.size
  rw [arena.ruleId_toNat h]
  omega

/-- Different rules have different symbols. -/
theorem Arena.ruleId_inj (arena : g.Arena) {j k : Nat} (hj : j < g.size) (hk : k < g.size)
    (same : g.ruleId j = g.ruleId k) : j = k := by
  have ids := congrArg UInt32.toNat same
  rw [arena.ruleId_toNat hj, arena.ruleId_toNat hk] at ids
  omega

/-- The text of a rule's right-hand side. -/
def expandRule (g : Grammar) : Rule → Text
  | .pair a b => g.expand a ++ g.expand b
  | .block a n => (List.replicate n.toNat (g.expand a)).flatten

theorem expand_of_rule?_none (h : g.rule? v = none) : g.expand v = [v] := by
  rw [expand, h]

theorem expand_of_terminal (h : v.toNat < g.terminals) : g.expand v = [v] :=
  expand_of_rule?_none (rule?_of_terminal h)

/-- In order, no operand is left out of the expansion. -/
theorem expand_of_rule? (h : g.Ordered) (found : g.rule? v = some r) :
    g.expand v = g.expandRule r := by
  have sound := h.soundAt found
  rw [expand, found]
  cases r with
  | pair a b =>
      have first : a < v := UInt32.lt_iff_toNat_lt.mpr sound.1
      have second : b < v := UInt32.lt_iff_toNat_lt.mpr sound.2
      simp [expandRule, first, second]
  | block a n =>
      have first : a < v := UInt32.lt_iff_toNat_lt.mpr sound.1
      simp [expandRule, first]

/-- Induction over the derivation trees of all symbols. -/
theorem Ordered.symbol_induction (h : g.Ordered) {P : Symbol → Prop}
    (leaf : ∀ v, g.rule? v = none → P v)
    (node : ∀ v r, g.rule? v = some r → r.SoundAt v.toNat → (∀ a ∈ r.operands, P a) → P v)
    (v : Symbol) : P v := by
  induction hn : v.toNat using Nat.strongRecOn generalizing v with
  | ind n ih =>
      cases found : g.rule? v with
      | none => exact leaf v found
      | some r =>
          have sound := h.soundAt found
          apply node v r found sound
          intro a ha
          exact ih a.toNat (hn ▸ sound.operand_lt ha) a rfl

/-- No symbol stands for the empty text. -/
theorem Ordered.expand_ne_nil (o : g.Ordered) (v : Symbol) : g.expand v ≠ [] := by
  induction v using o.symbol_induction with
  | leaf v found =>
      rw [expand_of_rule?_none found]
      exact List.cons_ne_nil v []
  | node v r found sound ih =>
      rw [expand_of_rule? o found]
      cases r with
      | pair a b =>
          intro empty
          exact ih a Rule.left_mem_operands (List.append_eq_nil_iff.mp empty).1
      | block a n =>
          have copies : n.toNat = n.toNat - 1 + 1 := by
            have := sound.2
            omega
          rw [expandRule, copies, List.replicate_succ, List.flatten_cons]
          intro empty
          exact ih a Rule.copied_mem_operands (List.append_eq_nil_iff.mp empty).1

/-- What a rule stands for comes from its operands. -/
theorem exists_operand_of_mem_expandRule {c : Symbol} (hc : c ∈ g.expandRule r) :
    ∃ a ∈ r.operands, c ∈ g.expand a := by
  cases r with
  | pair a b =>
      obtain first | second := List.mem_append.mp hc
      · exact ⟨a, by simp [Rule.operands], first⟩
      · exact ⟨b, by simp [Rule.operands], second⟩
  | block a n =>
      obtain ⟨copy, isCopy, inside⟩ := List.mem_flatten.mp hc
      rw [List.eq_of_mem_replicate isCopy] at inside
      exact ⟨a, by simp [Rule.operands], inside⟩

/-- An expansion consists of terminals. -/
theorem Ordered.lt_of_mem_expand (o : g.Ordered) (known : g.Known v) {c : Symbol}
    (hc : c ∈ g.expand v) : c.toNat < g.terminals := by
  induction v using o.symbol_induction with
  | leaf v found =>
      rw [expand_of_rule?_none found, List.mem_singleton] at hc
      subst hc
      exact terminal_of_rule?_none known found
  | node v r found sound ih =>
      rw [expand_of_rule? o found] at hc
      obtain ⟨a, operand, inside⟩ := exists_operand_of_mem_expandRule hc
      exact ih a operand (Nat.lt_trans (sound.operand_lt operand) known) inside

end Grammar

end RunGrammar
