import Mathlib
import RunGrammar.Proofs.Compression.Phases

/-!
# What is left of runs

The phase that replaces runs leaves one symbol for each maximal run of the text,
in order: the symbol of the run if it is alone, and otherwise a new symbol whose
rule is the block of the run (`Run.Leaves`). No symbol stands beside itself any
more, since new symbols are not mixed up with those that stay and neighbouring
runs are runs of different symbols. The new rules are the blocks of the longer
runs, each of them once.

`Compressor.replaceRuns_specified` states this of every strategy and of every
text and grammar for which a compressor is ready.
-/

namespace RunGrammar

namespace Text

variable {text : Text}

/-- The blocks of the runs of two or more symbols, from left to right. -/
def runRules (text : Text) : List Rule :=
  (text.runs.filter (2 ≤ ·.length)).map fun run => .block run.symbol (.ofNat run.length)

theorem filterMap_rule?_map_ofRun {runs : List Run} (nonempty : ∀ run ∈ runs, 0 < run.length) :
    (runs.map Piece.ofRun).filterMap Piece.rule? =
      (runs.filter (2 ≤ ·.length)).map fun run => .block run.symbol (.ofNat run.length) := by
  induction runs with
  | nil => rfl
  | cons run runs ih =>
      have rest := ih fun other ho => nonempty other (List.mem_cons_of_mem run ho)
      by_cases one : run.length = 1
      · have short : ¬ 2 ≤ run.length := by omega
        simp [List.filterMap_cons, Piece.ofRun, Piece.rule?, one, rest]
      · have := nonempty run List.mem_cons_self
        have long : 2 ≤ run.length := by omega
        simp [Piece.ofRun, Piece.rule?, one, long, rest]

/-- The rules of the phase are the blocks of the longer runs. -/
theorem filterMap_rule?_runPieces (text : Text) :
    text.runPieces.filterMap Piece.rule? = text.runRules :=
  filterMap_rule?_map_ofRun (maximal_runs text).nonempty

theorem foldedCount_runPieces (text : Text) :
    Piece.foldedCount text.runPieces = text.runs.countP (2 ≤ ·.length) := by
  rw [← Piece.length_filterMap_rule?, filterMap_rule?_runPieces, runRules, List.length_map,
    List.countP_eq_length_filter]

end Text

/-- A symbol that is left of a run: that of the run if it is alone, and otherwise a new one, which
has got the block of the run as its rule. -/
def Run.Leaves (g g' : Grammar) (run : Run) (v : Symbol) : Prop :=
  if run.length = 1 then v = run.symbol
  else ¬ g.Known v ∧
    ∃ n : UInt32, n.toNat = run.length ∧ g'.rule? v = some (.block run.symbol n)

namespace Replacement

variable {g : Grammar} {text : Text} {rules : List Rule}

theorem leaves_symbolOf (h : Replacement g text text.runPieces rules)
    (short : text.length < idSpace) {run : Run} (hr : run ∈ text.runs) :
    run.Leaves g (g.pushAll rules) (Naming.symbolOf g rules (Piece.ofRun run)) := by
  have member : Piece.ofRun run ∈ text.runPieces := List.mem_map_of_mem hr
  unfold Run.Leaves
  split
  · next one => rw [Piece.ofRun, if_pos one, Naming.symbolOf]
  · next long =>
      have folded : Piece.ofRun run = .folded (.block run.symbol (.ofNat run.length)) := by
        rw [Piece.ofRun, if_neg long]
      rw [folded] at member ⊢
      -- The number of copies fits into a word, since the text is not longer.
      have copies : (UInt32.ofNat run.length).toNat = run.length := by
        rw [UInt32.toNat_ofNat']
        exact Nat.mod_eq_of_lt (Nat.lt_of_le_of_lt (Text.length_run_le hr) short)
      exact ⟨h.not_known_symbolOf member, _, copies, h.rule?_symbolOf member⟩

/-- One symbol is left of each run, in order. -/
theorem forall₂_leaves (h : Replacement g text text.runPieces rules)
    (short : text.length < idSpace) :
    List.Forall₂ (Run.Leaves g (g.pushAll rules)) text.runs
      (text.runPieces.map (Naming.symbolOf g rules)) := by
  rw [Text.runPieces, List.map_map, List.forall₂_map_right_iff, List.forall₂_same]
  exact fun run hr => h.leaves_symbolOf short hr

end Replacement

namespace Compressor

variable {c : Compressor} {g : Grammar} {text : Text} {count : Nat}

/-- The runs of the text are replaced, and so many of them had two or more symbols. -/
structure RunsReplaced (c : Compressor) (g : Grammar) (text : Text) (count : Nat) (p : Progress) :
    Prop where
  symbols : List.Forall₂ (Run.Leaves g p.grammar) (c.read text).runs p.read
  distinct : p.read.Distinct
  expands : p.read.flatMap p.grammar.expand = (c.read text).flatMap g.expand
  count_eq : count = (c.read text).runs.countP (2 ≤ ·.length)
  appended : ∃ rules, c.Appended (c.read text).runRules rules g p.grammar
  ready : p.compressor.Ready p.grammar p.text

theorem runsReplaced_of_replaced {p : Progress} (ready : c.Ready g text)
    (h : c.Replaced g text (c.read text).runPieces count p) : c.RunsReplaced g text count p where
  symbols := by
    rw [h.read_eq, h.grammar_eq]
    exact h.replacement.forall₂_leaves ready.short_read
  distinct := by
    rw [h.read_eq]
    exact h.replacement.distinct (Text.isChain_first_runPieces _)
  expands := h.expands
  count_eq := by rw [h.count_eq, Text.foldedCount_runPieces]
  appended := by
    have appended := h.appended (c.read text).uniform_runPieces
    rw [Text.filterMap_rule?_runPieces] at appended
    exact ⟨_, appended⟩
  ready := h.ready ready

/-- Whatever the strategy, replacing the runs of a text leaves one symbol for each run, in order: a
single symbol stays, and a longer run becomes the new symbol of the block of exactly this run. No
two neighbours are equal, and the text stands for what it stood for. The answer is the number of
longer runs, and the new rules are their blocks, each once, in order of appearance or in ascending
order. The phase goes through exactly if there are ids for these rules. If there are not, only the
strategy that names rules as they appear may have appended some of them. -/
theorem replaceRuns_specified (ready : c.Ready g text) :
    (c.replaceRuns g text).compressor.strategy = c.strategy ∧
    (∀ count, (c.replaceRuns g text).result = .ok count →
      c.RunsReplaced g text count (c.replaceRuns g text)) ∧
    ((∃ count, (c.replaceRuns g text).result = .ok count) ↔
      g.terminals + g.size + (c.read text).runRules.dedup.length ≤ idSpace) ∧
    ∀ e, (c.replaceRuns g text).result = .error e → c.strategy ≠ .firstSeen →
      (c.replaceRuns g text).grammar = g := by
  have follows := replaceRuns_follows ready
  have spells := Text.spells_runPieces ready.short_read
  refine ⟨strategy_runPhase _ c g text, ?_, ?_, ?_⟩
  · intro count done
    exact runsReplaced_of_replaced ready (replaced_of_follows ready spells follows done)
  · rw [exists_ok_iff_of_follows ready follows, length_newRules, Text.filterMap_rule?_runPieces]
  · intro e failed ahead
    exact grammar_replaceRuns_of_error ahead failed

/-- The dense text stands for `1 1 1 6 4 4`, where `6` is the second rule of the grammar. -/
theorem replaceRuns_specified_dense :
    (dense #[1, 4, 6]).Ready nested [0, 0, 0, 2, 1, 1] ∧
    ∃ count, ((dense #[1, 4, 6]).replaceRuns nested [0, 0, 0, 2, 1, 1]).result = .ok count ∧
      (dense #[1, 4, 6]).RunsReplaced nested [0, 0, 0, 2, 1, 1] count
        ((dense #[1, 4, 6]).replaceRuns nested [0, 0, 0, 2, 1, 1]) := by
  have ready : (dense #[1, 4, 6]).Ready nested [0, 0, 0, 2, 1, 1] :=
    ready_nested (by decide) (by simp)
  obtain ⟨_, replaced, goes, _⟩ := replaceRuns_specified ready
  obtain ⟨count, done⟩ := goes.mpr (by decide)
  exact ⟨ready, count, done, replaced count done⟩

end Compressor

end RunGrammar
