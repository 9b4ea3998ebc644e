import Mathlib
import RunGrammar.Proofs.Compression.Course
import RunGrammar.Proofs.Compression.Lossless
import RunGrammar.Proofs.Grammar.Reachability

/-!
# No rule is idle

Along the course of a compression every rule is reached from some symbol of the
text that is left. A phase keeps this up in two ways: the symbol of a new rule
stands in the new text, since only rules of folded pieces are created, and a
symbol of the old text is kept or becomes an operand of a symbol of the new
text. So in the end the root reaches all rules. Each of them was paid for with a
symbol of the source, and one symbol is left for the root.
-/

namespace RunGrammar

/-- Every rule is reached from some symbol of the text. -/
def Grammar.Live (g : Grammar) (text : Text) : Prop :=
  ∀ v, g.Known v → g.terminals ≤ v.toNat → ∃ c ∈ text, g.Reaches c v

theorem Piece.mem_operands_of_mem_text {r : Rule} {a : Symbol} (h : a ∈ (folded r).text) :
    a ∈ r.operands := by
  cases r with
  | pair b c => simpa [Piece.text, Rule.operands] using h
  | block b n =>
      rw [Piece.text] at h
      rw [List.eq_of_mem_replicate h, Rule.operands, List.mem_singleton]

variable {terminals : Nat} {source text : Text} {g : Grammar} {pieces : List Piece}
variable {rules : List Rule}

/-- The symbol of a piece reaches all symbols that the piece covers. -/
theorem Folding.reaches_symbolOf (f : Folding terminals source g text pieces rules) {piece : Piece}
    (h : piece ∈ pieces) {a : Symbol} (ha : a ∈ piece.text) :
    (g.pushAll rules).Reaches (Naming.symbolOf g rules piece) a := by
  cases piece with
  | kept c =>
      rw [List.mem_singleton.mp ha]
      exact Relation.ReflTransGen.refl
  | folded r =>
      exact Relation.ReflTransGen.single
        ⟨r, f.rule?_symbolOf h, Piece.mem_operands_of_mem_text ha⟩

theorem Grammar.Live.fold (live : g.Live text)
    (f : Folding terminals source g text pieces rules) :
    (g.pushAll rules).Live (pieces.map (Naming.symbolOf g rules)) := by
  intro v known late
  obtain old | ⟨r, folded, rfl⟩ := f.known_cases known
  · obtain ⟨c, inside, reached⟩ := live v old (by rwa [Grammar.terminals_pushAll] at late)
    rw [← f.spells.flatMap_text] at inside
    obtain ⟨piece, member, covered⟩ := List.mem_flatMap.mp inside
    exact ⟨_, List.mem_map_of_mem member,
      (f.reaches_symbolOf member covered).trans (reached.pushAll rules)⟩
  · exact ⟨_, List.mem_map_of_mem folded, Relation.ReflTransGen.refl⟩

namespace Naming.Completes

variable {n : Naming} {levels : Nat} {u : Workspace Unit} {root : Symbol}

theorem live (run : n.Completes terminals source levels u) (short : source.length < idSpace) :
    u.grammar.Live u.text := by
  refine Naming.along short run.small run.below (P := fun _ => Grammar.Live) ?_ ?_ ?_ ?_ run.reached
  · intro v known late
    exact absurd known (Nat.not_lt.mpr late)
  · exact fun _ _ _ _ f live => live.fold f
  · exact fun _ _ _ _ _ f live => live.fold f
  · exact fun _ _ _ _ live => live

/-- One symbol is left of a text that is not empty. -/
theorem exists_root (run : n.Completes terminals source levels u) (short : source.length < idSpace)
    (nonempty : source ≠ []) : ∃ root, u.text = [root] := by
  apply List.length_eq_one_iff.mp
  have left : u.text ≠ [] := by
    intro gone
    have expands := (run.stage short).expands
    rw [gone] at expands
    exact nonempty expands.symm
  have := List.length_pos_iff.mpr left
  have := run.last
  omega

section Root

variable (run : n.Completes terminals source levels u) (short : source.length < idSpace)
variable (left : u.text = [root])

include run short left

theorem reaches_ruleId {k : Nat} (hk : k < u.rooted.size) :
    u.rooted.Reaches root (u.rooted.ruleId k) := by
  have arena := run.arena short
  have late : u.rooted.terminals ≤ (u.rooted.ruleId k).toNat := by
    rw [arena.ruleId_toNat hk]
    exact Nat.le_add_right _ _
  obtain ⟨v, inside, reached⟩ := run.live short _ (arena.known_ruleId hk) late
  rw [left, List.mem_singleton] at inside
  exact inside ▸ reached

/-- The letters of the source are the terminals that the root reaches. -/
theorem mem_source_iff (a : Symbol) :
    a ∈ source ↔ a.toNat < terminals ∧ u.rooted.Reaches root a := by
  have stage := run.stage short
  have terminals_eq : u.rooted.terminals = terminals := stage.terminals_eq
  have expands := stage.expands
  rw [left, List.flatMap_singleton, ← u.expand_rooted] at expands
  have reaches_iff : a.toNat < terminals → (u.rooted.Reaches root a ↔ a ∈ source) := by
    intro terminal
    rw [← terminals_eq] at terminal
    rw [(run.arena short).ordered.reaches_iff_mem_expand terminal, expands]
  constructor
  · intro inside
    exact ⟨run.below a inside, (reaches_iff (run.below a inside)).mpr inside⟩
  · rintro ⟨terminal, reached⟩
    exact (reaches_iff terminal).mp reached

theorem size_le : u.rooted.size ≤ source.length - 1 := by
  have room := (run.stage short).room
  rw [left, List.length_singleton] at room
  show u.grammar.size ≤ source.length - 1
  omega

end Root

end Naming.Completes

namespace Compressor

/-- A grammar for a text that is not empty has a root that reaches all rules and exactly the
terminals that occur in the text, and it has fewer rules than the text has symbols. -/
theorem compress_without_waste (c : Compressor) (terminals : Nat) (text : Text)
    (short : text.length < idSpace) (nonempty : text ≠ []) (g : Grammar)
    (done : (c.compress terminals text).1.result = .ok g) :
    ∃ root, g.root = some root ∧ (∀ k, k < g.size → g.Reaches root (g.ruleId k)) ∧
      (∀ a, a ∈ text ↔ a.toNat < terminals ∧ g.Reaches root a) ∧ g.size ≤ text.length - 1 := by
  obtain ⟨levels, u, run, rfl, _⟩ := c.completes_of_ok short done
  obtain ⟨root, left⟩ := run.exists_root short nonempty
  have rooted : u.rooted.root = some root := by
    rw [u.root_rooted, left]
    rfl
  exact ⟨root, rooted, fun _ hk => run.reaches_ruleId short left hk,
    run.mem_source_iff short left, run.size_le short left⟩

/-- One letter of three does not occur. -/
theorem compress_without_waste_missing : ([2, 2, 0, 2, 0] : Text).length < idSpace ∧
    ([2, 2, 0, 2, 0] : Text) ≠ [] ∧
    ∃ g, ((firstSeen ∅).compress 3 [2, 2, 0, 2, 0]).1.result = .ok g ∧
      ∃ root, g.root = some root ∧ ¬ g.Reaches root 1 ∧ g.size ≤ 4 := by
  have short : ([2, 2, 0, 2, 0] : Text).length < idSpace := by decide
  have nonempty : ([2, 2, 0, 2, 0] : Text) ≠ [] := by simp
  obtain ⟨g, done⟩ : ∃ g, ((firstSeen ∅).compress 3 [2, 2, 0, 2, 0]).1.result = .ok g :=
    exists_result_of_room _ short (by simp) (by simp [idSpace])
  obtain ⟨root, found, _, terminals, few⟩ :=
    compress_without_waste (firstSeen ∅) 3 [2, 2, 0, 2, 0] short nonempty g done
  refine ⟨short, nonempty, g, done, root, found, fun reached => ?_, few⟩
  have member := (terminals 1).mpr ⟨by decide, reached⟩
  simp at member

end Compressor

end RunGrammar
