import Mathlib
import RunGrammar.Proofs.Grammar.Lengths

/-!
# Growing a grammar

Appending rules to an arena changes nothing for the symbols that are there
already, and the new symbols expand as their rules say. If the new rules refer
to old symbols only, these expansions can be read in the old grammar. As long as
the ids suffice, an arena with right lengths remains one.
-/

namespace RunGrammar.Grammar

variable {g : Grammar} {v : Symbol} {r : Rule} {rs : List Rule}

theorem pushAll_cons (g : Grammar) (r : Rule) (rs : List Rule) :
    g.pushAll (r :: rs) = (g.push r).pushAll rs := rfl

@[simp] theorem terminals_pushAll (g : Grammar) (rs : List Rule) :
    (g.pushAll rs).terminals = g.terminals := by
  induction rs generalizing g with
  | nil => rfl
  | cons r rs ih => rw [pushAll_cons, ih, terminals_push]

@[simp] theorem root_pushAll (g : Grammar) (rs : List Rule) : (g.pushAll rs).root = g.root := by
  induction rs generalizing g with
  | nil => rfl
  | cons r rs ih => rw [pushAll_cons, ih, root_push]

@[simp] theorem bareRules_pushAll (g : Grammar) (rs : List Rule) :
    (g.pushAll rs).bareRules = g.bareRules ++ rs := by
  induction rs generalizing g with
  | nil => simp [pushAll]
  | cons r rs ih => rw [pushAll_cons, ih, bareRules_push, List.append_assoc, List.singleton_append]

@[simp] theorem size_pushAll (g : Grammar) (rs : List Rule) :
    (g.pushAll rs).size = g.size + rs.length := by
  rw [← length_bareRules, bareRules_pushAll, List.length_append, length_bareRules]

theorem Known.pushAll (h : g.Known v) (rs : List Rule) : (g.pushAll rs).Known v := by
  have before : v.toNat < g.terminals + g.size := h
  show v.toNat < (g.pushAll rs).terminals + (g.pushAll rs).size
  rw [terminals_pushAll, size_pushAll]
  omega

theorem rule?_pushAll_of_known (h : g.Known v) (rs : List Rule) :
    (g.pushAll rs).rule? v = g.rule? v := by
  rw [rule?_eq, rule?_eq, terminals_pushAll, bareRules_pushAll]
  by_cases early : v.toNat < g.terminals
  · rw [if_pos early, if_pos early]
  · rw [if_neg early, if_neg early, List.getElem?_append_left]
    have before : v.toNat < g.terminals + g.size := h
    rw [length_bareRules]
    omega

/-- Old symbols keep their expansion. -/
theorem expand_pushAll_of_known (h : g.Known v) (rs : List Rule) :
    (g.pushAll rs).expand v = g.expand v :=
  expand_congr_upTo v fun _ hu =>
    rule?_pushAll_of_known (Nat.lt_of_le_of_lt hu h) rs

/-- The new symbols have the new rules. -/
theorem rule?_pushAll_ruleId {i : Nat} (fits : g.terminals + g.size + i < idSpace)
    (rs : List Rule) : (g.pushAll rs).rule? (g.ruleId (g.size + i)) = rs[i]? := by
  have value : (g.ruleId (g.size + i)).toNat = g.terminals + (g.size + i) :=
    ruleId_toNat (by omega)
  rw [rule?_eq, terminals_pushAll, bareRules_pushAll, value, if_neg (by omega),
    Nat.add_sub_cancel_left, List.getElem?_append_right (by rw [length_bareRules]; omega),
    length_bareRules, Nat.add_sub_cancel_left]

theorem getElem?_push (g : Grammar) (r : Rule) (k : Nat) :
    (g.push r).rules[k]? = if k = g.size then some ⟨r, g.ruleLength r⟩ else g.rules[k]? := by
  unfold push size
  rw [Array.getElem?_push]

theorem Ordered.push (o : g.Ordered) (sound : r.SoundAt (g.terminals + g.size)) :
    (g.push r).Ordered := by
  intro k entry found
  rw [getElem?_push] at found
  split at found
  · next last =>
      cases found
      rw [last]
      exact sound
  · exact o k entry found

/-- What `push` records follows from what is recorded for the operands. -/
theorem Sized.push (sized : g.Sized) (o : g.Ordered) (sound : r.SoundAt (g.terminals + g.size)) :
    (g.push r).Sized := by
  have known : ∀ a ∈ r.operands, g.Known a := fun a ha => sound.operand_lt ha
  have old : ∀ r' : Rule, (∀ a ∈ r'.operands, g.Known a) →
      (g.push r).expandRule r' = g.expandRule r' := by
    intro r' hr'
    exact expandRule_congr fun a ha => expand_pushAll_of_known (hr' a ha) [r]
  intro k entry found
  rw [getElem?_push] at found
  split at found
  · cases found
    rw [old r known]
    exact ruleLength_eq fun a ha => sized.length_eq o (known a ha)
  · have inside : k < g.size := (Array.getElem?_eq_some_iff.mp found).1
    rw [old entry.rule fun a ha =>
      Nat.lt_trans ((o k entry found).operand_lt ha) (Nat.add_lt_add_left inside _)]
    exact sized k entry found

/-- Each of these rules refers to the symbols before its own only, when they are appended. -/
def Rising (g : Grammar) (rs : List Rule) : Prop :=
  ∀ (i : Nat) (r : Rule), rs[i]? = some r → r.SoundAt (g.terminals + g.size + i)

theorem Rising.head (rising : g.Rising (r :: rs)) : r.SoundAt (g.terminals + g.size) :=
  rising 0 r rfl

theorem Rising.tail (rising : g.Rising (r :: rs)) : (g.push r).Rising rs := by
  intro i s found
  have sound := rising (i + 1) s found
  rwa [terminals_push, size_push, Nat.add_assoc, Nat.add_assoc, Nat.add_comm 1, ← Nat.add_assoc]

theorem rising_of_sound (sound : ∀ r ∈ rs, r.SoundAt (g.terminals + g.size)) : g.Rising rs :=
  fun _ r found => (sound r (List.mem_of_getElem? found)).mono (Nat.le_add_right _ _)

theorem Ordered.pushAll (o : g.Ordered) (rising : g.Rising rs) : (g.pushAll rs).Ordered := by
  induction rs generalizing g with
  | nil => exact o
  | cons r rs ih => exact ih (o.push rising.head) rising.tail

theorem Sized.pushAll (sized : g.Sized) (o : g.Ordered) (rising : g.Rising rs) :
    (g.pushAll rs).Sized := by
  induction rs generalizing g with
  | nil => exact sized
  | cons r rs ih => exact ih (sized.push o rising.head) (o.push rising.head) rising.tail

/-- A new symbol expands as its rule says, in terms of the old symbols. -/
theorem expand_pushAll_ruleId (o : g.Ordered) (sound : ∀ r ∈ rs, r.SoundAt (g.terminals + g.size))
    {i : Nat} (fits : g.terminals + g.size + i < idSpace) (found : rs[i]? = some r) :
    (g.pushAll rs).expand (g.ruleId (g.size + i)) = g.expandRule r := by
  have member : r ∈ rs := List.mem_of_getElem? found
  rw [expand_of_rule? (o.pushAll (rising_of_sound sound))
    ((rule?_pushAll_ruleId fits rs).trans found)]
  exact expandRule_congr fun a ha =>
    expand_pushAll_of_known ((sound r member).operand_lt ha) rs

end RunGrammar.Grammar
