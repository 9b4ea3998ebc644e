import Mathlib
import RunGrammar.Proofs.Compression.Totality

/-!
# The course of a compression

A compression comes through a workspace before each round and through one
between the two phases of a round. `Method.Reaches` generates these workspaces,
one constructor for each thing that a round can do, for any method.

For the method of a naming every workspace on the way is a stage of the source,
and each phase folds pieces of the text. Hence a property holds along the whole
course if it holds at the start and if both phases keep it; `Naming.along` is
this induction. A grammar that a compressor answers with is the last one on the
course of its naming.
-/

namespace RunGrammar

/-- Where a compression stands: before a round, or between the two phases of one. -/
inductive Point where
  | before (level : Nat)
  | between (level : Nat)

variable {σ : Type}

namespace Method

/-- The workspaces that a method comes through, from `w₀` on. -/
inductive Reaches (m : Method σ) (w₀ : Workspace σ) : Point → Workspace σ → Prop where
  | start : Reaches m w₀ (.before 0) w₀
  | runs {level count : Nat} {w w₁ : Workspace σ} (reached : Reaches m w₀ (.before level) w)
      (long : 1 < w.text.length) (done : m.replaceRuns w = .ok count w₁) :
      Reaches m w₀ (.between level) (afterRuns level count w.text.length w₁)
  | pairs {level count : Nat} {w w₁ : Workspace σ} (reached : Reaches m w₀ (.between level) w)
      (long : 1 < w.text.length) (done : m.replacePairs w = .ok count w₁) :
      Reaches m w₀ (.before (level + 1))
        (w₁.report (.pairsReplaced level count w.text.length w₁.text.length))
  /-- The second phase is left out when one symbol is left of the runs. -/
  | single {level : Nat} {w : Workspace σ} (reached : Reaches m w₀ (.between level) w)
      (short : w.text.length ≤ 1) : Reaches m w₀ (.before (level + 1)) w

variable {m : Method σ} {w₀ w w₁ u : Workspace σ} {level levels : Nat}

theorem Reaches.round (reached : m.Reaches w₀ (.before level) w) (long : 1 < w.text.length)
    (done : m.round level w = .ok () w₁) : m.Reaches w₀ (.before (level + 1)) w₁ := by
  cases runs : m.replaceRuns w with
  | error e v =>
      rw [round_of_runs_error runs] at done
      cases done
  | ok count v =>
      have half := reached.runs long runs
      by_cases short : v.text.length ≤ 1
      · rw [round_of_short runs short] at done
        cases done
        exact half.single short
      · have long₁ := Nat.not_le.mp short
        cases pairs : m.replacePairs (afterRuns level count w.text.length v) with
        | error e v' =>
            rw [round_of_pairs_error runs long₁ pairs] at done
            cases done
        | ok count' v' =>
            rw [round_of_pairs_ok runs long₁ pairs] at done
            cases done
            exact half.pairs long₁ pairs

/-- Rounds that end well lead to a workspace on the way, with at most one symbol left. -/
theorem Reaches.rounds (reached : m.Reaches w₀ (.before level) w)
    (done : m.rounds level w = .ok levels u) :
    m.Reaches w₀ (.before levels) u ∧ u.text.length ≤ 1 := by
  induction hn : w.text.length using Nat.strongRecOn generalizing w level with
  | ind k ih =>
      by_cases short : w.text.length ≤ 1
      · rw [rounds_of_short short] at done
        cases done
        exact ⟨reached, short⟩
      · have long := Nat.not_le.mp short
        cases step : m.round level w with
        | error e v =>
            rw [rounds_of_error long step] at done
            cases done
        | ok _ v =>
            by_cases shorter : v.text.length < w.text.length
            · rw [rounds_of_shorter long step shorter] at done
              exact ih v.text.length (hn ▸ shorter) (reached.round long step) done rfl
            · rw [Method.rounds, if_neg short, step] at done
              simp only [if_neg shorter] at done
              cases done

end Method

/-- A phase that goes through at a stage: these are pieces of the text, and the rules of those that
are folded all get ids. -/
structure Folding (terminals : Nat) (source : Text) (g : Grammar) (text : Text)
    (pieces : List Piece) (rules : List Rule) : Prop where
  stage : Stage terminals source g text
  spells : Spells pieces text
  covers : Covers rules pieces
  fits : g.terminals + g.size + rules.length ≤ idSpace

namespace Folding

variable {terminals : Nat} {source text : Text} {g : Grammar} {pieces part : List Piece}
variable {rules : List Rule} {r : Rule} {v : Symbol}

theorem replacement (f : Folding terminals source g text pieces rules) :
    Replacement g text pieces rules :=
  f.stage.replacement f.spells f.covers f.fits

theorem infix_text (f : Folding terminals source g text pieces rules) (inside : part <:+: pieces) :
    part.flatMap Piece.text <:+: text :=
  f.spells.flatMap_text ▸ inside.flatMap Piece.text

/-- The symbols of some pieces stand for what the pieces cover. -/
theorem expand_map (f : Folding terminals source g text pieces rules) (inside : part ⊆ pieces) :
    (part.map (Naming.symbolOf g rules)).flatMap (g.pushAll rules).expand =
      (part.flatMap Piece.text).flatMap g.expand :=
  f.replacement.expand_part inside

/-- The symbol of a folded piece has the rule of the piece. -/
theorem rule?_symbolOf (f : Folding terminals source g text pieces rules)
    (h : .folded r ∈ pieces) :
    (g.pushAll rules).rule? (Naming.symbolOf g rules (.folded r)) = some r :=
  f.replacement.rule?_symbolOf h

/-- Every symbol is an old one or that of a folded piece. -/
theorem known_cases (f : Folding terminals source g text pieces rules)
    (known : (g.pushAll rules).Known v) :
    g.Known v ∨ ∃ r, .folded r ∈ pieces ∧ v = Naming.symbolOf g rules (.folded r) := by
  have bound : v.toNat < (g.pushAll rules).terminals + (g.pushAll rules).size := known
  rw [Grammar.terminals_pushAll, Grammar.size_pushAll] at bound
  obtain old | new := Nat.lt_or_ge v.toNat (g.terminals + g.size)
  · exact .inl old
  · have inside : v.toNat - (g.terminals + g.size) < rules.length := by omega
    have folded := (f.covers.mem_iff _).mp (List.getElem_mem inside)
    refine .inr ⟨_, folded, UInt32.toNat_inj.mp ?_⟩
    rw [f.covers.symbolOf_toNat f.fits folded, f.covers.nodup.idxOf_getElem]
    omega

end Folding

namespace Naming

variable {n : Naming} {terminals count levels : Nat} {source : Text} {pieces : List Piece}
variable {w w₁ : Workspace Unit} {point : Point}

/-- What a phase leaves, when it goes through. -/
theorem folding_of_ok (s : Stage terminals source w.grammar w.text)
    (spells : Spells pieces w.text) (done : n.fold pieces w = .ok count w₁) :
    ∃ rules, Folding terminals source w.grammar w.text pieces rules ∧
      count = Piece.foldedCount pieces ∧
      w₁ = { w with
        grammar := w.grammar.pushAll rules
        text := pieces.map (symbolOf w.grammar rules) } := by
  obtain ⟨reserved, count_eq, rfl⟩ := eq_of_fold_ok done
  have small := Nat.le_trans (Nat.le_add_right _ _) s.arena.fits
  exact ⟨_, ⟨s, spells, n.covers pieces, fits_of_reserve_ok small reserved⟩, count_eq, rfl⟩

section Course

variable (short : source.length < idSpace) (small : terminals ≤ idSpace)
variable (below : ∀ a ∈ source, a.toNat < terminals)

include short small below

/-- Every workspace on the way is a stage, and between the phases of a round no symbol stands beside
itself. -/
theorem stage_of_reaches (reached : n.method.Reaches (start terminals source) point w) :
    Stage terminals source w.grammar w.text ∧
      ∀ level, point = .between level → w.text.Distinct := by
  induction reached with
  | start => exact ⟨.start small below, fun _ h => by cases h⟩
  | runs _ _ done ih =>
      have spells := Text.spells_runPieces (Nat.lt_of_le_of_lt ih.1.short short)
      obtain ⟨rules, f, _, rfl⟩ := folding_of_ok ih.1 spells done
      exact ⟨ih.1.fold spells f.covers f.fits, fun _ _ =>
        ih.1.distinct_fold spells f.covers f.fits (Text.isChain_first_runPieces _)⟩
  | @pairs _ _ w _ _ _ done ih =>
      have spells := (Partition.ofText w.text).spells_pairPieces w.text
      obtain ⟨rules, f, _, rfl⟩ := folding_of_ok ih.1 spells done
      exact ⟨ih.1.fold spells f.covers f.fits, fun _ h => by cases h⟩
  | single _ _ ih => exact ⟨ih.1, fun _ h => by cases h⟩

/-- What holds at the start and is kept by both phases holds along the whole course. -/
theorem along {P : Point → Grammar → Text → Prop}
    (start : P (.before 0) { terminals } source)
    (runs : ∀ level g text rules, Folding terminals source g text text.runPieces rules →
      P (.before level) g text →
        P (.between level) (g.pushAll rules) (text.runPieces.map (symbolOf g rules)))
    (pairs : ∀ level g text rules, text.Distinct →
      Folding terminals source g text ((Partition.ofText text).pairPieces text) rules →
        P (.between level) g text →
          P (.before (level + 1)) (g.pushAll rules)
            (((Partition.ofText text).pairPieces text).map (symbolOf g rules)))
    (single : ∀ level g text, text.length ≤ 1 → P (.between level) g text →
      P (.before (level + 1)) g text)
    (reached : n.method.Reaches (Naming.start terminals source) point w) :
    P point w.grammar w.text := by
  induction reached with
  | start => exact start
  | runs reached _ done ih =>
      obtain ⟨s, _⟩ := stage_of_reaches short small below reached
      obtain ⟨rules, f, _, rfl⟩ := folding_of_ok s
        (Text.spells_runPieces (Nat.lt_of_le_of_lt s.short short)) done
      exact runs _ _ _ rules f ih
  | @pairs _ _ w _ reached _ done ih =>
      obtain ⟨s, distinct⟩ := stage_of_reaches short small below reached
      obtain ⟨rules, f, _, rfl⟩ := folding_of_ok s
        ((Partition.ofText w.text).spells_pairPieces w.text) done
      exact pairs _ _ _ rules (distinct _ rfl) f ih
  | single reached last ih => exact single _ _ _ last ih

end Course

/-- A naming brings a text over the alphabet down to at most one symbol. -/
structure Completes (n : Naming) (terminals : Nat) (source : Text) (levels : Nat)
    (u : Workspace Unit) : Prop where
  small : terminals ≤ idSpace
  below : ∀ a ∈ source, a.toNat < terminals
  reached : n.method.Reaches (start terminals source) (.before levels) u
  last : u.text.length ≤ 1

theorem Completes.stage {u : Workspace Unit} (run : n.Completes terminals source levels u)
    (short : source.length < idSpace) : Stage terminals source u.grammar u.text :=
  (stage_of_reaches short run.small run.below run.reached).1

theorem Completes.arena {u : Workspace Unit} (run : n.Completes terminals source levels u)
    (short : source.length < idSpace) : u.rooted.Arena :=
  ⟨(run.stage short).arena.ordered, (run.stage short).arena.fits⟩

end Naming

/-- The course of a method, in symbols of the grammar, is the course of its naming. -/
theorem Simulates.reaches {m : Method σ} {Inv : Workspace σ → Prop} {n : Naming}
    (sim : Simulates m Inv n) {terminals : Nat} {source : Text} {w₀ w : Workspace σ}
    {point : Point} (short : source.length < idSpace) (small : terminals ≤ idSpace)
    (below : ∀ a ∈ source, a.toNat < terminals) (inv₀ : Inv w₀)
    (view₀ : m.view w₀ = Naming.start terminals source) (reached : m.Reaches w₀ point w) :
    Inv w ∧ n.method.Reaches (Naming.start terminals source) point (m.view w) := by
  induction reached with
  | start => exact ⟨inv₀, view₀ ▸ .start⟩
  | @runs level count w w₁ _ long done ih =>
      obtain ⟨inv, reached⟩ := ih
      have stage := (Naming.stage_of_reaches short small below reached).1
      have matched := sim.replaceRuns short inv stage
      rw [done] at matched
      obtain ⟨done', inv₁⟩ := matched.right_of_ok
      rw [← sim.length_view] at long
      exact ⟨sim.inv_report _ _ inv₁, sim.view_afterRuns level count w w₁ ▸ reached.runs long done'⟩
  | @pairs level count w w₁ _ long done ih =>
      obtain ⟨inv, reached⟩ := ih
      -- The second phase matches only because the first one left no symbol beside itself.
      obtain ⟨stage, distinct⟩ := Naming.stage_of_reaches short small below reached
      have matched := sim.replacePairs short inv stage (distinct level rfl)
      rw [done] at matched
      obtain ⟨done', inv₁⟩ := matched.right_of_ok
      rw [← sim.length_view] at long
      have next := reached.pairs long done'
      rw [sim.length_view, sim.length_view] at next
      exact ⟨sim.inv_report _ _ inv₁, next⟩
  | single _ last ih =>
      obtain ⟨inv, reached⟩ := ih
      rw [← sim.length_view] at last
      exact ⟨inv, reached.single last⟩

/-- A compressor that answers with a grammar got it from the rounds of its naming. -/
theorem Compressor.exists_rounds_of_ok (c : Compressor) {terminals : Nat} {text : Text}
    {g : Grammar} (short : text.length < idSpace)
    (done : (c.compress terminals text).1.result = .ok g) :
    terminals ≤ idSpace ∧ (∀ a ∈ text, a.toNat < terminals) ∧
      ∃ levels u, c.naming.method.rounds 0 (Naming.start terminals text) = .ok levels u ∧
        g = u.rooted := by
  obtain large | small := Nat.lt_or_ge idSpace terminals
  · rw [c.compress_of_terminals text large] at done
    cases done
  · by_cases below : ∀ a ∈ text, a.toNat < terminals
    · refine ⟨small, below, ?_⟩
      obtain ⟨levels, u, ended, _⟩ | ⟨e, u, failed, _⟩ :=
        c.naming.rounds_start_outcome short small below
      · rw [c.compress_of_rounds_ok short small below ended] at done
        cases done
        exact ⟨levels, u, ended, rfl⟩
      · rw [c.compress_of_rounds_error short small below failed] at done
        cases done
    · push Not at below
      obtain ⟨a, _, _, found⟩ := Alphabet.exists_find?_of_outside below
      rw [c.compress_of_outside small found] at done
      cases done

/-- A grammar that a compressor answers with is the last one on the course of its naming, and the
reports are those of this course. -/
theorem Compressor.completes_of_ok (c : Compressor) {terminals : Nat} {text : Text} {g : Grammar}
    (short : text.length < idSpace) (done : (c.compress terminals text).1.result = .ok g) :
    ∃ levels u, c.naming.Completes terminals text levels u ∧ g = u.rooted ∧
      (c.compress terminals text).1.events = u.events ++ [u.conclusion c.strategy.name levels] := by
  obtain ⟨small, below, levels, u, ended, rfl⟩ := c.exists_rounds_of_ok short done
  obtain ⟨reached, last⟩ := Method.Reaches.start.rounds ended
  refine ⟨levels, u, ⟨small, below, reached, last⟩, rfl, ?_⟩
  rw [c.compress_of_rounds_ok short small below ended]

end RunGrammar
