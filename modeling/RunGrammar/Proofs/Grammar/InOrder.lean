import Mathlib
import RunGrammar.Proofs.Grammar.Unordered

/-!
# Rules that are in order already

On rules whose operands come first, the search opens one rule after the other
and finishes each of them at once. The order that it finds is the one in which
the rules are listed, so nothing is renamed, and the lengths that are recorded
while the rules are appended are those that the forward pass computes. Hence
`ofUnordered` makes the same grammar of such rules as `ofRules`.
-/

namespace RunGrammar.Grammar

variable {t n k : Nat} {rules : Array Rule} {s : Search}

/-- Every rule may have the id of the place where it is listed. -/
def InOrder (t : Nat) (rules : Array Rule) : Prop :=
  ∀ (k : Nat) (r : Rule), rules[k]? = some r → r.SoundAt (t + k)

/-- Finished operands leave nothing to be visited. -/
theorem freshOperands_of_finished {vs : List Symbol} (fresh : List Nat)
    (done : ∀ v ∈ vs, v.toNat < t ∨ ∃ c, c < n ∧ v.toNat = t + c ∧ s.markOf c = .finished) :
    freshOperands t n s vs fresh = .ok fresh := by
  induction vs with
  | nil => rfl
  | cons v vs ih =>
      obtain ⟨here, later⟩ := List.forall_mem_cons.mp done
      obtain terminal | ⟨c, inside, value, mark⟩ := here
      · have index : ruleIndex t n v = .ok none := if_pos terminal
        simpa [freshOperands, index] using ih later
      · have index : ruleIndex t n v = .ok (some c) := by simp [ruleIndex, value, inside]
        simpa [freshOperands, index, mark] using ih later

/-- A rule behind finished operands is opened and finished at once. -/
theorem visit_of_finished {depth : Nat} {r : Rule} (size : s.marks.size = rules.size)
    (found : rules[k]? = some r) (fresh : s.markOf k = .fresh) (sound : r.SoundAt (t + k))
    (before : ∀ c, c < k → s.markOf c = .finished) :
    visit t rules (depth + 1) s k = .ok ((s.setMark k .opened).finish k) := by
  have inside : k < rules.size := (Array.getElem?_eq_some_iff.mp found).1
  obtain ⟨vs, looked, operands, _⟩ | ⟨e, _, unsound⟩ := lookedAt_outcome r
  swap
  · exact absurd sound (unsound (t + k))
  have done : ∀ v ∈ vs, v.toNat < t ∨
      ∃ c, c < rules.size ∧ v.toNat = t + c ∧ (s.setMark k .opened).markOf c = .finished := by
    intro v hv
    have early := sound.operand_lt ((operands v).mp hv)
    obtain terminal | late := Nat.lt_or_ge v.toNat t
    · exact .inl terminal
    · have first : v.toNat - t < k := by omega
      refine .inr ⟨v.toNat - t, Nat.lt_trans first inside, by omega, ?_⟩
      simpa [Search.markOf_setMark (size ▸ inside), Nat.ne_of_lt first] using before _ first
  have unfinished : s.markOf k ≠ .finished := by simp [fresh]
  have listing := freshOperands_of_finished [] done
  simp [visit_of_unfinished found unfinished, looked, listing]

/-- After the first `n` rules, the search has finished these rules in their order and nothing
else. -/
theorem InOrder.foldlM_visit (sound : InOrder t rules) (hn : n ≤ rules.size) :
    ∃ s, (List.range n).foldlM (visit t rules (rules.size + 1))
        { marks := Array.replicate rules.size .fresh } = .ok s ∧
      s.Inv t rules [] ∧ s.order = Array.range n := by
  induction n with
  | zero => exact ⟨_, rfl, Search.Inv.start t rules, rfl⟩
  | succ n ih =>
      obtain ⟨s, done, inv, order⟩ := ih (Nat.le_of_succ_le hn)
      have found : rules[n]? = some rules[n] := Array.getElem?_eq_getElem hn
      have marks : ∀ c, c < rules.size → (s.markOf c = .finished ↔ c < n) := by
        intro c hc
        simp [inv.finished c hc, order]
      have fresh : s.markOf n = .fresh := by
        cases mark : s.markOf n with
        | fresh => rfl
        | opened => simpa using (inv.opened n).mp mark
        | finished => exact absurd ((marks n hn).mp mark) (Nat.lt_irrefl n)
      have next : visit t rules (rules.size + 1) s n = .ok ((s.setMark n .opened).finish n) :=
        visit_of_finished inv.size found fresh (sound n _ found) fun c hc =>
          (marks c (Nat.lt_trans hc hn)).mpr hc
      have visits := (visit_answers inv (enters_start (List.mem_range.mpr hn))).visits next
      refine ⟨_, ?_, visits.inv, ?_⟩
      · simp [List.range_succ, done, next]
      · simp [Search.finish_eq, Search.setMark, order, Array.range_succ]

/-- Rules in order stay where they are. -/
theorem InOrder.creationOrder_eq (sound : InOrder t rules) :
    creationOrder t rules = .ok (Array.range rules.size) := by
  obtain ⟨s, done, _, order⟩ := sound.foldlM_visit (Nat.le_refl rules.size)
  simp [creationOrder, done, order]

theorem exhausts_range (n : Nat) : Exhausts (Array.range n) n := by
  simp [Exhausts]

/-- Numbering the rules as they are listed changes no symbol. -/
theorem renumber_range (fits : t + n ≤ idSpace) (v : Symbol) :
    renumber t (newIds t n (Array.range n)) v = v := by
  obtain terminal | late := Nat.lt_or_ge v.toNat t
  · exact renumber_of_terminal terminal
  obtain ⟨k, value⟩ := Nat.exists_eq_add_of_le late
  obtain inside | unknown := Nat.lt_or_ge k n
  · have place := toNat_renumber (exhausts_range n) fits inside value
    have position : (Array.range n).toList.idxOf k = k := by
      have bound : k < (List.range n).length := by simpa using inside
      simpa using List.nodup_range.idxOf_getElem k bound
    exact UInt32.toNat_inj.mp (by omega)
  · exact renumber_of_unknown (exhausts_range n) (by omega)

variable {rs : List Rule} {root : Option Symbol}

/-- Arranged as they are listed, the rules are as they were. -/
theorem arranged_range (fits : t + rs.length ≤ idSpace) :
    arranged (renumber t (newIds t rs.length (Array.range rs.length))) rs.toArray
      (Array.range rs.length) = rs := by
  have same : renumber t (newIds t rs.length (Array.range rs.length)) = id :=
    funext (renumber_range fits)
  apply List.ext_getElem?
  intro i
  rw [getElem?_arranged (by simp)]
  by_cases inside : i < rs.length <;> simp [same, inside]

theorem inOrder_of_loose (o : (loose t rs root).Ordered) : InOrder t rs.toArray := by
  intro k r found
  exact o k ⟨r, 1⟩ (by simpa [loose] using found)

theorem sameRules_appended (fits : t + rs.length ≤ idSpace) :
    SameRules (loose t rs root) (appended t rs root (Array.range rs.length)) where
  terminals := by simp [appended]
  root := by cases root <;> simp [appended, renumber_range fits]
  bareRules := by
    have rules := bareRules_pushAll { terminals := t } rs
    rw [bareRules_loose, appended, arranged_range fits]
    exact rules.symm

/-- Rules from which a grammar is made as they are listed give the same grammar when their order
does not count: nothing is renamed, and the recorded lengths are the same, cut off or not. -/
theorem ofUnordered_eq_ofRules {g : Grammar} (made : ofRules t rs root = .ok g) :
    ofUnordered t rs root = .ok g := by
  obtain ⟨fits, same, valid, sized⟩ := ofRules_ok made
  obtain ⟨o, known⟩ := validate_eq_ok_iff.mp valid
  have inOrder : creationOrder t rs.toArray = .ok (Array.range rs.length) :=
    (inOrder_of_loose (same.ordered o)).creationOrder_eq
  have ready : OperandsFirst t rs.toArray (Array.range rs.length) :=
    (exhausts_of_creationOrder inOrder).2
  have rootKnown : ∀ v, root = some v → v.toNat < t + rs.length := by
    intro v hv
    have inside : v.toNat < g.terminals + g.size := known v (same.root.trans hv)
    simpa [same.terminals, same.size] using inside
  have settled := settles_appended (exhausts_range rs.length) fits ready rootKnown
  have result : g = appended t rs root (Array.range rs.length) :=
    (same.trans (sameRules_appended fits)).eq_of_sized sized settled.sized
  obtain ⟨_, index, _⟩ | ⟨_, _, unknown⟩ := rootIndex_answers t rs.length root
  · rw [ofUnordered_eq, checkIdSpace_eq_ok_iff.mpr fits, Failing.ok_bind, inOrder,
      Failing.ok_bind, index, Failing.ok_bind, settled.valid, result]
    rfl
  · exact absurd rootKnown unknown

/-- The lengths of this grammar are cut off on both ways. -/
theorem ofUnordered_eq_ofRules_saturated :
    ofRules 1 saturated.bareRules (some 3) = .ok saturated ∧
      ofUnordered 1 saturated.bareRules (some 3) = .ok saturated := by
  have valid : saturated.validate = .ok () := by rfl
  have fits : saturated.terminals + saturated.size ≤ idSpace := by decide
  have computed : saturated.computeLengths = saturated := by decide
  have made : ofRules 1 saturated.bareRules (some 3) = .ok saturated :=
    ofRules_bareRules valid fits computed
  exact ⟨made, ofUnordered_eq_ofRules made⟩

end RunGrammar.Grammar
