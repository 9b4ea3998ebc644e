import Mathlib
import RunGrammar.Proofs.Grammar.DepthFirst
import RunGrammar.Proofs.Grammar.Growth

/-!
# Rules in any order

`ofUnordered` succeeds on rules that can be put into an order in which operands
come first, and on no others. Its result has the same rules under new symbols
and records the length of each of them; the test for the arena order that it
makes at the end never fails.

What is handed over is regarded as a grammar whose rules may be out of order, so
that the result is a renumbering of it.
-/

namespace RunGrammar.Grammar

variable {t : Nat} {rules : List Rule} {root : Option Symbol} {order : Array Nat}

/-- These rules where they are, whatever their order. -/
def loose (t : Nat) (rules : List Rule) (root : Option Symbol) : Grammar where
  terminals := t
  rules := (rules.map fun r => ⟨r, 1⟩).toArray
  root

@[simp] theorem terminals_loose : (loose t rules root).terminals = t := rfl

@[simp] theorem root_loose : (loose t rules root).root = root := rfl

@[simp] theorem bareRules_loose : (loose t rules root).bareRules = rules := by
  simp [loose, bareRules, Function.comp_def]

@[simp] theorem size_loose : (loose t rules root).size = rules.length := by
  rw [← length_bareRules, bareRules_loose]

theorem rule?_loose {k : Nat} (room : t + k < idSpace) :
    (loose t rules root).rule? (.ofNat (t + k)) = rules[k]? := by
  have value : (UInt32.ofNat (t + k)).toNat = t + k := ruleId_toNat (g := loose t rules root) room
  rw [rule?_eq, value, terminals_loose, bareRules_loose, if_neg (by omega),
    Nat.add_sub_cancel_left]

theorem idxOf_lt_of_mem_take {ks : List Nat} {i k : Nat} (h : k ∈ ks.take i) : ks.idxOf k < i := by
  have inside := List.idxOf_lt_length_iff.mpr h
  rw [← List.take_append_drop i ks, List.idxOf_append_of_mem h]
  exact Nat.lt_of_lt_of_le inside (List.length_take_le i ks)

/-- A rule that comes behind its operands refers to symbols before its own only. -/
theorem soundAt_rename (all : Exhausts order rules.length) (fits : t + rules.length ≤ idSpace)
    {i : Nat} {r : Rule} (ready : Ready t (order.toList.take i) r) :
    (r.rename (renumber t (newIds t rules.length order))).SoundAt (t + i) := by
  have operand : ∀ v ∈ r.operands,
      (renumber t (newIds t rules.length order) v).toNat < t + i := by
    intro v hv
    obtain terminal | ⟨c, before, value⟩ := ready.operands v hv
    · rw [renumber_of_terminal terminal]
      exact Nat.lt_of_lt_of_le terminal (Nat.le_add_right t i)
    · have inside := (all.mem_iff c).mp (List.mem_of_mem_take before)
      rw [toNat_renumber all fits inside value]
      exact Nat.add_lt_add_left (idxOf_lt_of_mem_take before) t
  cases r with
  | pair a b => exact ⟨operand a Rule.left_mem_operands, operand b Rule.right_mem_operands⟩
  | block a n => exact ⟨operand a Rule.copied_mem_operands, ready.copies a n rfl⟩

/-- What is derived has no part in what the rules expand to. -/
theorem Sized.withRoot {g : Grammar} (sized : g.Sized) (root : Option Symbol) :
    Sized { g with root } := by
  intro k entry found
  have rules : ∀ u, g.rule? u = rule? { g with root } u := fun _ => rfl
  have same : g.expandRule entry.rule = expandRule { g with root } entry.rule :=
    expandRule_congr fun u _ => expand_congr rules u
  rw [sized k entry found, same]

/-- What a grammar out of rules in any order is to them. -/
structure Settles (t : Nat) (rules : List Rule) (root : Option Symbol) (h : Grammar) : Prop where
  fits : t + rules.length ≤ idSpace
  renumbers : ∃ σ, Renumbers σ (loose t rules root) h
  valid : h.validate = .ok ()
  sized : h.Sized

/-- The rules of an order, appended one after the other. -/
def appended (t : Nat) (rules : List Rule) (root : Option Symbol) (order : Array Nat) : Grammar :=
  let rename := renumber t (newIds t rules.length order)
  { pushAll { terminals := t } (arranged rename rules.toArray order) with root := root.map rename }

theorem rising_arranged (all : Exhausts order rules.length) (fits : t + rules.length ≤ idSpace)
    (ready : OperandsFirst t rules.toArray order) :
    Rising { terminals := t }
      (arranged (renumber t (newIds t rules.length order)) rules.toArray order) := by
  intro i r' found
  rw [getElem?_arranged fun k hk => by simpa using (all.mem_iff k).mp hk] at found
  obtain ⟨k, place, found⟩ := Option.bind_eq_some_iff.mp found
  obtain ⟨r, isRule, behind⟩ := ready i k place
  rw [isRule, Option.map_some, Option.some_inj] at found
  exact found ▸ soundAt_rename all fits behind

theorem settles_appended (all : Exhausts order rules.length) (fits : t + rules.length ≤ idSpace)
    (ready : OperandsFirst t rules.toArray order)
    (known : ∀ v, root = some v → v.toNat < t + rules.length) :
    Settles t rules root (appended t rules root order) := by
  let start : Grammar := { terminals := t }
  let ordered := arranged (renumber t (newIds t rules.length order)) rules.toArray order
  let h := appended t rules root order
  have rising : start.Rising ordered := rising_arranged all fits ready
  have empty : start.Ordered := fun k entry found => by simp [start] at found
  have nothing : start.Sized := fun k entry found => by simp [start] at found
  have o : h.Ordered := empty.pushAll rising
  have size : Exhausts order (loose t rules root).size := size_loose.symm ▸ all
  have room : (loose t rules root).terminals + (loose t rules root).size ≤ idSpace := by
    rwa [terminals_loose, size_loose]
  have ren : Renumbers (numbering size room) (loose t rules root) h := by
    apply renumbers_numbering size room
    · exact terminals_pushAll start ordered
    · rw [bareRules_loose, terminals_loose, size_loose]
      exact bareRules_pushAll start ordered
    · rw [terminals_loose, size_loose]
      rfl
  refine ⟨fits, ⟨_, ren⟩, validate_eq_ok_iff.mpr ⟨o, ?_⟩, ?_⟩
  swap
  · exact (nothing.pushAll empty rising).withRoot _
  intro v hv
  obtain ⟨u, hu, rfl⟩ := Option.map_eq_some_iff.mp (ren.root.symm.trans hv)
  apply ren.known
  show u.toNat < _
  rw [terminals_loose, size_loose]
  exact known u hu

/-- If what a rule uses always ranks lower, no rule needs itself. -/
theorem acyclic_of_rank {rules : Array Rule} (rank : Nat → Nat)
    (before : ∀ k c, Uses t rules k c → rank c < rank k) :
    ∀ k, ¬ Relation.TransGen (Uses t rules) k k := by
  intro k cycle
  have descends : ∀ c, Relation.TransGen (Uses t rules) k c → rank c < rank k := by
    intro c chain
    induction chain with
    | single uses => exact before k _ uses
    | tail _ uses ih => exact Nat.lt_trans (before _ _ uses) ih
  exact Nat.lt_irrefl _ (descends k cycle)

/-- A renumbered grammar has rules that can be ordered, whatever their order is now. -/
theorem Renumbers.orderable {σ : Equiv.Perm Symbol} {g h : Grammar} (ren : Renumbers σ g h)
    (o : g.Ordered) (fits : h.terminals + h.size ≤ idSpace) :
    Orderable h.terminals h.bareRules.toArray := by
  -- The rule in place `k` is a renamed one, and it ranks as high as the rule that it comes from.
  have source : ∀ (k : Nat) (r' : Rule), h.bareRules[k]? = some r' →
      ∃ r, g.rule? (σ.symm (h.ruleId k)) = some r ∧ r.rename σ = r' := by
    intro k r' found
    have inside := (List.getElem?_eq_some_iff.mp found).1
    have value : (h.ruleId k).toNat = h.terminals + k :=
      ruleId_toNat (by rw [length_bareRules] at inside; omega)
    have moved := ren.rule? (σ.symm (h.ruleId k))
    rw [Equiv.apply_symm_apply, rule?_eq, value, if_neg (by omega), Nat.add_sub_cancel_left,
      found] at moved
    simpa using moved.symm
  refine ⟨?_, acyclic_of_rank (fun k => (σ.symm (h.ruleId k)).toNat) ?_⟩
  · intro k r' found
    obtain ⟨r, isRule, rfl⟩ := source k r' (by simpa using found)
    have sound := o.soundAt isRule
    have operand : ∀ a ∈ r.operands, (σ a).toNat < h.terminals + h.bareRules.toArray.size := by
      intro a ha
      have known : g.Known a := Nat.lt_trans (sound.operand_lt ha) (known_of_rule? isRule)
      rw [List.size_toArray, length_bareRules]
      exact ren.known known
    cases r with
    | pair a b => exact ⟨operand a Rule.left_mem_operands, operand b Rule.right_mem_operands⟩
    | block a n => exact ⟨operand a Rule.copied_mem_operands, sound.2⟩
  · rintro k c ⟨r', found, v', hv', value⟩
    obtain ⟨r, isRule, rfl⟩ := source k r' (by simpa using found)
    rw [Rule.operands_rename] at hv'
    obtain ⟨v, hv, rfl⟩ := List.mem_map.mp hv'
    have same : h.ruleId c = σ v := by
      rw [ruleId, ← value, UInt32.ofNat_toNat]
    rw [same, Equiv.symm_apply_apply]
    exact (o.soundAt isRule).operand_lt hv

theorem checkIdSpace_eq_ok_iff {n : Nat} : checkIdSpace t n = .ok () ↔ t + n ≤ idSpace := by
  by_cases fits : t + n ≤ idSpace <;> simp [checkIdSpace, fitsIdSpace, fits]

theorem ofUnordered_eq (t : Nat) (rules : List Rule) (root : Option Symbol) :
    ofUnordered t rules root = (do
      checkIdSpace t rules.length
      let order ← creationOrder t rules.toArray
      let _ ← root.elim (.ok none) (ruleIndex t rules.length)
      (appended t rules root order).validate
      return appended t rules root order) := by
  cases root <;> rfl

/-- The test of the root passes on terminals and on symbols of rules. -/
theorem rootIndex_answers (t n : Nat) (root : Option Symbol) :
    (∃ k, root.elim (.ok none) (ruleIndex t n) = .ok k ∧
      ∀ v, root = some v → v.toNat < t + n) ∨
    ∃ e, root.elim (.ok none) (ruleIndex t n) = .error e ∧
      ¬ ∀ v, root = some v → v.toNat < t + n := by
  cases root with
  | none => exact .inl ⟨none, rfl, by simp⟩
  | some v =>
      obtain ⟨terminal, index⟩ | ⟨k, inside, value, index⟩ | ⟨unknown, e, index⟩ :=
        ruleIndex_outcome t n v
      · refine .inl ⟨none, index, ?_⟩
        rintro _ ⟨⟩
        exact Nat.lt_of_lt_of_le terminal (Nat.le_add_right t n)
      · refine .inl ⟨some k, index, ?_⟩
        rintro _ ⟨⟩
        omega
      · exact .inr ⟨e, index, fun known => Nat.not_lt.mpr unknown (known v rfl)⟩

theorem known_of_rootIndex {n : Nat} {k : Option Nat}
    (index : root.elim (.ok none) (ruleIndex t n) = .ok k) :
    ∀ v, root = some v → v.toNat < t + n := by
  obtain ⟨_, _, known⟩ | ⟨e, failed, _⟩ := rootIndex_answers t n root
  · exact known
  · cases failed.symm.trans index

/-- Rules in any order make up a grammar if there are ids enough, the rules can be ordered and the
root is known. If one of this is missing, they do not. -/
theorem ofUnordered_answers (t : Nat) (rules : List Rule) (root : Option Symbol) :
    (∃ h, ofUnordered t rules root = .ok h ∧ Settles t rules root h) ∨
    ∃ e, ofUnordered t rules root = .error e ∧ ¬ (t + rules.length ≤ idSpace ∧
      Orderable t rules.toArray ∧ ∀ v, root = some v → v.toNat < t + rules.length) := by
  rw [ofUnordered_eq]
  by_cases fits : t + rules.length ≤ idSpace
  · have ids : checkIdSpace t rules.length = .ok () := checkIdSpace_eq_ok_iff.mpr fits
    rw [ids, Failing.ok_bind]
    obtain ⟨order, found, all, ready⟩ | ⟨e, failed, reason⟩ := creationOrder_answers t rules.toArray
    · rw [found, Failing.ok_bind]
      obtain ⟨k, index, known⟩ | ⟨e, failed, reason⟩ := rootIndex_answers t rules.length root
      · have settled := settles_appended all fits ready known
        rw [index, Failing.ok_bind, settled.valid]
        exact .inl ⟨_, rfl, settled⟩
      · rw [failed]
        exact .inr ⟨e, rfl, fun h => reason h.2.2⟩
    · rw [failed]
      exact .inr ⟨e, rfl, fun h => reason h.2.1⟩
  · have ids : checkIdSpace t rules.length = .error (.malformed (.idRange t rules.length)) := by
      simp [checkIdSpace, fitsIdSpace, fits]
    rw [ids]
    exact .inr ⟨_, rfl, fun h => fits h.1⟩

theorem settles_of_ofUnordered {h : Grammar} (made : ofUnordered t rules root = .ok h) :
    Settles t rules root h := by
  obtain ⟨h', same, settled⟩ | ⟨e, failed, _⟩ := ofUnordered_answers t rules root
  · cases same.symm.trans made
    exact settled
  · cases failed.symm.trans made

/-- What a grammar out of rules in order is to them. -/
theorem ofRules_ok {g : Grammar} (made : ofRules t rules root = .ok g) :
    t + rules.length ≤ idSpace ∧ SameRules g (loose t rules root) ∧ g.validate = .ok () ∧
      g.Sized := by
  obtain ⟨_, ids, made⟩ := Failing.bind_eq_ok_iff.mp made
  obtain ⟨_, valid, made⟩ := Failing.bind_eq_ok_iff.mp made
  cases made
  obtain ⟨o, known⟩ := validate_eq_ok_iff.mp valid
  have same := sameRules_computeLengths o
  refine ⟨checkIdSpace_eq_ok_iff.mp ids, same, validate_eq_ok_iff.mpr ⟨same.symm.ordered o, ?_⟩,
    sized_computeLengths o⟩
  intro v hv
  show v.toNat < _
  rw [same.terminals, same.size]
  exact known v (same.root ▸ hv)

end RunGrammar.Grammar
