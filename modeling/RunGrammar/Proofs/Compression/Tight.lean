import Mathlib
import RunGrammar.Proofs.Alphabet.Pruning
import RunGrammar.Proofs.Compression.Course
import RunGrammar.Proofs.Compression.Dense

/-!
# The mapping is tight throughout a compression

Along the whole course of a compression on a dense alphabet the mapping ascends,
and its entries are the symbols of the grammar that the text stands for, no more
and no fewer. A phase that replaces something ends with pruning, which leaves no
entry unused; a phase that replaces nothing leaves everything as it was.
-/

namespace RunGrammar

namespace DenseAlphabet

open Alphabet (Dense)

/-- The mapping ascends and has exactly those symbols of the grammar that the text stands for. -/
structure Tight (w : Workspace (Array Symbol)) : Prop where
  ascending : w.tables.toList.Pairwise (· < ·)
  /-- The entries are what the text is read as through the mapping. -/
  mem_iff : ∀ v, v ∈ w.tables ↔ ∃ c ∈ w.text, w.tables[c.toNat]? = some v
  /-- All of them are terminals or have rules. -/
  known : ∀ v ∈ w.tables, v.toNat < w.grammar.terminals + w.grammar.size
  inside : ∀ c ∈ w.text, c.toNat < w.tables.size

variable {w w₁ : Workspace (Array Symbol)} {pieces : List Piece} {count terminals : Nat}
variable {text : Text}

theorem Tight.inv (t : Tight w) : Inv w := ⟨⟨t.ascending, t.inside⟩, t.known⟩

theorem Tight.report (t : Tight w) (e : Event) : Tight (w.report e) :=
  ⟨t.ascending, t.mem_iff, t.known, t.inside⟩

/-- A dense form is tight, if the grammar knows the letters. -/
theorem tight_of_remaps {grammar : Grammar} {events : List Event} {d : Dense}
    (r : d.Remaps text) (known : ∀ v ∈ d.mapping, grammar.Known v) :
    Tight ⟨d.text, grammar, d.mapping, events⟩ where
  ascending := r.ascending
  mem_iff v := by
    have spelled : some v ∈ d.entries ↔ v ∈ text := by
      rw [r.spells, List.mem_map]
      simp
    exact (r.mem_iff v).trans (spelled.symm.trans Dense.mem_entries)
  known := known
  inside := r.fits.inside

/-- Pruning makes the mapping tight. -/
theorem tight_afterDraft (inv : Inv w) (spells : Spells pieces w.text) {draft : Draft}
    (shown : draft.Shows w.grammar w.tables pieces (phaseRules pieces))
    (room : w.grammar.terminals + w.grammar.size + (phaseRules pieces).length ≤ idSpace) :
    Tight (afterDraft w draft) := by
  have inv₁ := inv_afterDraft inv spells shown room
  refine ⟨inv₁.fits.ascending, ?_, inv₁.known, inv₁.fits.inside⟩
  intro v
  exact (Dense.mem_prune_iff (fits_draft inv spells shown room).inside).trans Dense.mem_entries

/-- A phase keeps the mapping tight. -/
theorem Tight.replace (t : Tight w) (small : w.grammar.terminals ≤ idSpace)
    (spells : Spells pieces w.text) (uniform : Rule.Uniform (pieces.filterMap Piece.rule?))
    (done : DenseAlphabet.replace pieces w = .ok count w₁) : Tight w₁ := by
  by_cases none : occurrences pieces = []
  · -- Nothing is replaced, and the workspace is left alone.
    rw [replace_of_none none] at done
    cases done
    exact t
  · cases reserved : w.grammar.reserve (groups (occurrences pieces)).length with
    | error e =>
        rw [replace_of_exhausted none reserved] at done
        cases done
    | ok _ =>
        rw [replace_of_room none reserved] at done
        cases done
        have room := Naming.ascending.fits_of_reserve_ok small reserved
        rw [length_groups uniform] at room
        exact tight_afterDraft t.inv spells (shows_phaseRules t.inv spells uniform) room

section Course

variable {w₀ : Workspace (Array Symbol)} {point : Point} (short : text.length < idSpace)
variable (small : terminals ≤ idSpace) (below : ∀ c ∈ text, c.toNat < terminals)

include short small below

/-- The text that is left can be compressed further, and the grammar still has the terminals. -/
theorem stage_view_of_reaches (tight : Tight w₀)
    (view₀ : method.view w₀ = Naming.start terminals text) (reached : method.Reaches w₀ point w) :
    Stage terminals text w.grammar (method.view w).text := by
  have course := (simulates.reaches short small below tight.inv view₀ reached).2
  exact (Naming.stage_of_reaches short small below course).1

/-- Both phases keep the mapping tight, so it is tight on the whole course. -/
theorem tight_of_reaches (tight : Tight w₀) (view₀ : method.view w₀ = Naming.start terminals text)
    (reached : method.Reaches w₀ point w) : Tight w := by
  induction reached with
  | start => exact tight
  | @runs _ _ w _ reached _ done ih =>
      have s := stage_view_of_reaches short small below tight view₀ reached
      have spells := Text.spells_runPieces (Nat.lt_of_le_of_lt (length_text_le s) short)
      have fits : w.grammar.terminals ≤ idSpace := s.terminals_eq ▸ small
      exact (ih.replace fits spells w.text.uniform_runPieces done).report _
  | @pairs _ _ w _ reached _ done ih =>
      have s := stage_view_of_reaches short small below tight view₀ reached
      have spells := (Partition.ofText w.text).spells_pairPieces w.text
      have fits : w.grammar.terminals ≤ idSpace := s.terminals_eq ▸ small
      exact (ih.replace fits spells ((Partition.ofText w.text).uniform_pairPieces w.text)
        done).report _
  | single _ _ ih => exact ih

end Course

theorem tight_opening (below : ∀ c ∈ text, c.toNat < terminals) :
    Tight (opening terminals text) :=
  tight_of_remaps (Alphabet.remaps_dense text) (inv_opening below).known

/-- Before the first round and after every phase the mapping ascends, has exactly the symbols of the
grammar that the text stands for, and has an entry for every symbol of the text. Pruning keeps what
the symbols of a text lead to, and of the mapping the entries that are used, in their order. -/
theorem tight_throughout (short : text.length < idSpace) (terminals : Nat)
    (tables : Array Symbol) :
    (∀ g, ((Compressor.dense tables).compress terminals text).1.result = .ok g →
      terminals ≤ idSpace ∧ ∀ c ∈ text, c.toNat < terminals) ∧
    (terminals ≤ idSpace → (∀ c ∈ text, c.toNat < terminals) →
      ∃ w₀, method.prepare terminals { text, tables, grammar := { terminals } } = .ok () w₀ ∧
        method.compress tables terminals text = (method.rounds 0 >>= method.finish) w₀ ∧
        (∀ levels u, method.rounds 0 w₀ = .ok levels u → method.Reaches w₀ (.before levels) u) ∧
        ∀ point w, method.Reaches w₀ point w → Tight w) ∧
    ∀ d : Dense, (∀ c ∈ d.text, c.toNat < d.mapping.size) →
      Alphabet.pruneByTable d = Alphabet.prune d ∧ (Alphabet.prune d).entries = d.entries ∧
        (Alphabet.prune d).mapping.toList = d.usedEntries := by
  refine ⟨?_, ?_, ?_⟩
  · intro g done
    obtain ⟨small, below, _⟩ := (Compressor.dense tables).exists_rounds_of_ok short done
    exact ⟨small, below⟩
  · intro small below
    have prepared := prepare_of_below below tables
    refine ⟨opening terminals text, prepared, Method.compress_of_prepare_ok small prepared, ?_, ?_⟩
    · intro levels u ended
      exact (Method.Reaches.start.rounds ended).1
    · intro point w reached
      exact tight_of_reaches short small below (tight_opening below)
        (view_opening terminals text) reached
  · intro d inside
    exact ⟨Dense.pruneByTable_eq inside, Dense.entries_prune inside,
      Dense.mapping_prune_eq_usedEntries inside⟩

/-- Two runs are replaced by the rules 4 and 5, whose places in the mapping are 0 and 1. And a
mapping that is not ascending loses its second and its fourth entry. -/
theorem tight_throughout_two_runs :
    Tight ⟨[0, 1], Grammar.pushAll { terminals := 4 } [.block 1 2, .block 3 2], #[4, 5],
      [.runsReplaced 0 2 4 2]⟩ ∧
    (Alphabet.prune ⟨[0, 4, 2, 0], #[70, 20, 30, 40, 10]⟩).mapping.toList = [70, 30, 10] := by
  have short : ([1, 1, 3, 3] : Text).length < idSpace := by decide
  obtain ⟨_, run, pruning⟩ := tight_throughout short 4 #[]
  constructor
  · obtain ⟨w₀, prepared, _, _, tight⟩ := run (by decide) (by simp)
    have opened : method.prepare 4
        { text := [1, 1, 3, 3], tables := #[], grammar := { terminals := 4 } } =
          .ok () ⟨[0, 0, 1, 1], { terminals := 4 }, #[1, 3], []⟩ := by
      cbv
    cases prepared.symm.trans opened
    have done : method.replaceRuns ⟨[0, 0, 1, 1], { terminals := 4 }, #[1, 3], []⟩ =
        .ok 2 ⟨[0, 1], Grammar.pushAll { terminals := 4 } [.block 1 2, .block 3 2], #[4, 5],
          []⟩ := by
      cbv
    exact tight _ _ (Method.Reaches.start.runs (by decide) done)
  · exact (pruning ⟨[0, 4, 2, 0], #[70, 20, 30, 40, 10]⟩ (by simp)).2.2

end DenseAlphabet

end RunGrammar
