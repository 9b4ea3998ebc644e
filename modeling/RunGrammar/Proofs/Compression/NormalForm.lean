import Mathlib
import RunGrammar.Proofs.Compression.Course

/-!
# Run-length normal form

Runs are maximal, so a block never repeats a block. More precisely, two equal
symbols stand side by side before a round only if they are terminals or were
created by the pairs of the round before: the phase that replaces runs leaves no
equal neighbours, and the phase that replaces pairs brings symbols together only
where at least one of them is new. So whatever is repeated by a block is a
terminal or a pair.
-/

namespace RunGrammar

namespace Grammar

variable {g : Grammar} {v : Symbol} {r : Rule} {rules : List Rule}

/-- A terminal or the symbol of a pair. -/
def Repeatable (g : Grammar) (v : Symbol) : Prop :=
  v.toNat < g.terminals ∨ ∃ a b, g.rule? v = some (.pair a b)

/-- A pair of different symbols, or two or more copies of a terminal or a pair. -/
def NormalRule (g : Grammar) : Rule → Prop
  | .pair a b => a ≠ b
  | .block a n => 2 ≤ n.toNat ∧ g.Repeatable a

theorem Repeatable.isBlock (h : g.Repeatable v) : g.isBlock v = false := by
  obtain early | ⟨a, b, found⟩ := h
  · rw [Grammar.isBlock, rule?_of_terminal early]
    rfl
  · rw [Grammar.isBlock, found]
    rfl

theorem Repeatable.pushAll (h : g.Repeatable v) (rules : List Rule) :
    (g.pushAll rules).Repeatable v := by
  obtain early | ⟨a, b, found⟩ := h
  · exact .inl (by rwa [terminals_pushAll])
  · exact .inr ⟨a, b, by rw [rule?_pushAll_of_known (known_of_rule? found), found]⟩

theorem NormalRule.pushAll (h : g.NormalRule r) (rules : List Rule) :
    (g.pushAll rules).NormalRule r := by
  cases r with
  | pair a b => exact h
  | block a n => exact ⟨h.1, h.2.pushAll rules⟩

/-- Normal rules on top of normal rules are all normal. -/
theorem normalRule_of_mem_pushAll (old : ∀ r ∈ g.bareRules, g.NormalRule r)
    (new : ∀ r ∈ rules, g.NormalRule r) :
    ∀ r ∈ (g.pushAll rules).bareRules, (g.pushAll rules).NormalRule r := by
  intro r hr
  rw [bareRules_pushAll, List.mem_append] at hr
  obtain hr | hr := hr
  · exact (old r hr).pushAll rules
  · exact (new r hr).pushAll rules

/-- Pairs have two different operands, and blocks repeat terminals and pairs only. -/
structure NormalForm (g : Grammar) : Prop where
  differ : ∀ a b, .pair a b ∈ g.bareRules → a ≠ b
  copies : ∀ a n, .block a n ∈ g.bareRules → 2 ≤ n.toNat
  repeated : ∀ a n, .block a n ∈ g.bareRules →
    a.toNat < g.terminals ∨ ∃ b c, g.rule? a = some (.pair b c)
  /-- No block is repeated by a block. -/
  flat : ∀ a n, .block a n ∈ g.bareRules → g.isBlock a = false

theorem normalForm_of_rules (normal : ∀ r ∈ g.bareRules, g.NormalRule r) : g.NormalForm where
  differ _ _ h := normal _ h
  copies _ _ h := (normal _ h).1
  repeated _ _ h := (normal _ h).2
  flat _ _ h := (normal _ h).2.isBlock

end Grammar

/-- A folded piece of the runs is a block. -/
theorem Text.block_of_folded_mem {text : Text} {r : Rule} (h : .folded r ∈ text.runPieces) :
    ∃ c n, r = .block c n := by
  obtain ⟨run, _, found⟩ := List.mem_map.mp h
  unfold Piece.ofRun at found
  split at found
  · cases found
  · cases found
    exact ⟨_, _, rfl⟩

theorem Partition.ne_of_eligible {p : Partition} {a b : Symbol} (h : p.eligible a b = true) :
    a ≠ b := by
  rintro rfl
  rw [not_eligible_of_eligible h] at h
  cases h

/-- Only terminals and pairs stand beside themselves. -/
def Grammar.TwinsRepeatable (g : Grammar) (text : Text) : Prop :=
  ∀ c, [c, c] <:+: text → g.Repeatable c

namespace Folding

variable {terminals : Nat} {source text : Text} {g : Grammar} {rules : List Rule}
variable {p : Partition} {r : Rule}

/-- The runs of a text in which only terminals and pairs stand beside themselves give blocks in
normal form. -/
theorem normalRule_of_runs (f : Folding terminals source g text text.runPieces rules)
    (twins : g.TwinsRepeatable text) (hr : r ∈ rules) : g.NormalRule r := by
  have folded := (f.covers.mem_iff r).mp hr
  obtain ⟨c, n, rfl⟩ := Text.block_of_folded_mem folded
  have copies : 2 ≤ n.toNat := f.spells.folds _ folded
  have run : List.replicate n.toNat c <:+: text := by
    have inside := f.infix_text ((List.singleton_infix_iff _ _).mpr folded)
    rwa [List.flatMap_singleton, Piece.text] at inside
  have two : [c, c] <:+: List.replicate n.toNat c :=
    List.infix_replicate_iff.mpr ⟨copies, rfl⟩
  exact ⟨copies, twins c (two.trans run)⟩

theorem normalRule_of_pairs (f : Folding terminals source g text (p.pairPieces text) rules)
    (hr : r ∈ rules) : g.NormalRule r := by
  obtain ⟨a, b, rfl, eligible⟩ := Partition.eligible_of_folded_mem ((f.covers.mem_iff r).mp hr)
  exact Partition.ne_of_eligible eligible

/-- Where no symbol stood beside itself, replacing pairs brings only equal pairs together. -/
theorem twinsRepeatable_of_pairs (f : Folding terminals source g text (p.pairPieces text) rules)
    (distinct : text.Distinct) :
    (g.pushAll rules).TwinsRepeatable ((p.pairPieces text).map (Naming.symbolOf g rules)) := by
  have pair : ∀ r, .folded r ∈ p.pairPieces text →
      (g.pushAll rules).Repeatable (Naming.symbolOf g rules (.folded r)) := by
    intro r folded
    obtain ⟨a, b, rfl, _⟩ := Partition.eligible_of_folded_mem folded
    exact .inr ⟨a, b, f.rule?_symbolOf folded⟩
  intro c twins
  obtain ⟨part, inside, spelled⟩ := List.infix_map_iff.mp twins
  obtain ⟨x, rest, rfl, hx, later⟩ := List.map_eq_cons_iff.mp spelled.symm
  obtain ⟨y, rest, rfl, hy, none⟩ := List.map_eq_cons_iff.mp later
  cases List.map_eq_nil_iff.mp none
  cases x with
  | folded r => exact hx ▸ pair r (inside.subset (by simp))
  | kept a =>
      cases y with
      | folded r => exact hy ▸ pair r (inside.subset (by simp))
      | kept b =>
          -- Two kept symbols were neighbours before, and then they differ.
          have neighbours : [a, b] <:+: text := f.infix_text inside
          have apart : Text.Distinct [a, b] := List.IsChain.infix distinct neighbours
          exact absurd (hx.trans hy.symm) (List.isChain_pair.mp apart)

end Folding

/-- Along the course of a compression all rules are normal, and before a round only terminals and
pairs stand beside themselves. -/
def Point.Normal : Point → Grammar → Text → Prop
  | before _, g, text => (∀ r ∈ g.bareRules, g.NormalRule r) ∧ g.TwinsRepeatable text
  | between _, g, _ => ∀ r ∈ g.bareRules, g.NormalRule r

theorem Naming.Completes.normalRule {n : Naming} {terminals levels : Nat} {source : Text}
    {u : Workspace Unit} (run : n.Completes terminals source levels u)
    (short : source.length < idSpace) {r : Rule} (hr : r ∈ u.grammar.bareRules) :
    u.grammar.NormalRule r := by
  suffices normal : Point.Normal (.before levels) u.grammar u.text from normal.1 r hr
  refine Naming.along short run.small run.below ?_ ?_ ?_ ?_ run.reached
  · refine ⟨fun r hr => by simp [Grammar.bareRules] at hr, fun c twins => ?_⟩
    exact .inl (run.below c (twins.subset (by simp)))
  · intro _ g text rules f h
    exact Grammar.normalRule_of_mem_pushAll h.1 fun r hr => f.normalRule_of_runs h.2 hr
  · intro _ g text rules distinct f h
    exact ⟨Grammar.normalRule_of_mem_pushAll h fun r hr => f.normalRule_of_pairs hr,
      f.twinsRepeatable_of_pairs distinct⟩
  · intro _ g text last h
    refine ⟨h, fun c twins => absurd twins.length_le ?_⟩
    simp only [List.length_cons, List.length_nil]
    omega

namespace Compressor

/-- Whenever a compressor answers with a grammar, it is in run-length normal form. -/
theorem compress_normal_form (c : Compressor) (terminals : Nat) (text : Text)
    (short : text.length < idSpace) (g : Grammar)
    (done : (c.compress terminals text).1.result = .ok g) : g.NormalForm := by
  obtain ⟨levels, u, run, rfl, _⟩ := c.completes_of_ok short done
  apply Grammar.normalForm_of_rules
  intro r hr
  exact run.normalRule short hr

/-- A run of equal pairs, cut into three chunks. -/
theorem compress_normal_form_pairs : ([0, 1, 0, 1, 0, 1, 1] : Text).length < idSpace ∧
    ∃ g, ((chunked 3).compress 2 [0, 1, 0, 1, 0, 1, 1]).1.result = .ok g ∧ g.NormalForm := by
  have short : ([0, 1, 0, 1, 0, 1, 1] : Text).length < idSpace := by decide
  obtain ⟨g, done⟩ : ∃ g, ((chunked 3).compress 2 [0, 1, 0, 1, 0, 1, 1]).1.result = .ok g :=
    exists_result_of_room _ short (by simp) (by simp [idSpace])
  exact ⟨short, g, done, compress_normal_form (chunked 3) 2 [0, 1, 0, 1, 0, 1, 1] short g done⟩

end Compressor

end RunGrammar
