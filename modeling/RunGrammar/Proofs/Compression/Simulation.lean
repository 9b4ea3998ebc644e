import Mathlib
import RunGrammar.Compression.Strategy
import RunGrammar.Proofs.Compression.Progress

/-!
# Methods that carry out a naming

A method may keep tables, work on chunks or hold the text in symbols of its own.
Its `view` is what remains of a workspace when the text is read in symbols of
the grammar and the tables are forgotten. A method simulates a naming if its
phases, seen like this, are the phases of the naming. Induction on the rounds
lifts the simulation to whole compressions, so that grammar, failure and events
are those of the naming.

Phases have to match at the stages that a compression goes through, and the
second phase of a round only where no symbol stands beside itself. When the ids
run out, nothing is said about the text that is left.
-/

namespace RunGrammar

variable {σ α : Type}

namespace Method

/-- The workspace in symbols of the grammar, without the tables. -/
def view (m : Method σ) (w : Workspace σ) : Workspace Unit :=
  { text := m.restore w.tables w.text, grammar := w.grammar, tables := (), events := w.events }

@[simp] theorem view_text (m : Method σ) (w : Workspace σ) :
    (m.view w).text = m.restore w.tables w.text := rfl

@[simp] theorem view_grammar (m : Method σ) (w : Workspace σ) :
    (m.view w).grammar = w.grammar := rfl

theorem view_report (m : Method σ) (w : Workspace σ) (e : Event) :
    m.view (w.report e) = (m.view w).report e := rfl

end Method

/-- The grammar with the first symbol that is left as its root. -/
def Workspace.rooted (u : Workspace Unit) : Grammar := { u.grammar with root := u.text.head? }

/-- The report of a finished grammar. -/
def Workspace.conclusion (u : Workspace Unit) (name : String) (levels : Nat) : Event :=
  .finished name u.rooted.size u.rooted.blocks levels u.rooted.textLength

namespace Method

variable {m : Method σ} {terminals levels : Nat} {text : Text} {tables : σ} {w w₁ : Workspace σ}
variable {e : Failure}

theorem finish_eq (m : Method σ) (levels : Nat) (w : Workspace σ) :
    m.finish levels w = .ok (m.view w).rooted
      { text := (m.view w).text
        grammar := (m.view w).rooted
        tables := w.tables
        events := w.events ++ [(m.view w).conclusion m.name levels] } := rfl

/-- With more terminals than ids nothing else is looked at. -/
theorem compress_of_terminals (m : Method σ) (tables : σ) (text : Text) (h : idSpace < terminals) :
    m.compress tables terminals text = .error (.idSpaceExhausted terminals 0)
      { text, tables, grammar := { terminals } } := by
  have full : Grammar.reserve { terminals } 0 = .error (.idSpaceExhausted terminals 0) := by
    rw [Naming.reserve_grammar_exhausted _ _ (by simpa [Grammar.size] using h)]
    simp [Grammar.size]
  simp only [compress, run, Phase.reserve, Phase.check, bind, EStateM.bind, full]

theorem reserve_start (small : terminals ≤ idSpace) :
    Grammar.reserve { terminals } 0 = .ok () :=
  Naming.reserve_grammar_fits _ _ (by simpa [Grammar.size] using small)

theorem compress_of_prepare_error (small : terminals ≤ idSpace)
    (h : m.prepare terminals { text, tables, grammar := { terminals } } = .error e w) :
    m.compress tables terminals text = .error e w := by
  simp only [compress, run, Phase.reserve, Phase.check, bind, EStateM.bind, reserve_start small, h]

theorem compress_of_prepare_ok (small : terminals ≤ idSpace)
    (h : m.prepare terminals { text, tables, grammar := { terminals } } = .ok () w) :
    m.compress tables terminals text = (m.rounds 0 >>= m.finish) w := by
  simp only [compress, run, Phase.reserve, Phase.check, bind, EStateM.bind, reserve_start small, h]

theorem compress_of_rounds_error (small : terminals ≤ idSpace)
    (h : m.prepare terminals { text, tables, grammar := { terminals } } = .ok () w)
    (h' : m.rounds 0 w = .error e w₁) : m.compress tables terminals text = .error e w₁ := by
  rw [compress_of_prepare_ok small h, Failing.bind_of_error h']

theorem compress_of_rounds_ok (small : terminals ≤ idSpace)
    (h : m.prepare terminals { text, tables, grammar := { terminals } } = .ok () w)
    (h' : m.rounds 0 w = .ok levels w₁) :
    m.compress tables terminals text = m.finish levels w₁ := by
  rw [compress_of_prepare_ok small h, Failing.bind_of_ok h']

end Method

/-- The same value and the same view, where the method's own invariant holds; or the same failure
after the same events. -/
inductive Matches (m : Method σ) (Inv : Workspace σ → Prop) :
    EStateM.Result Failure (Workspace σ) α → EStateM.Result Failure (Workspace Unit) α → Prop where
  | ok {a : α} {w : Workspace σ} {u : Workspace Unit} (kept : Inv w) (view : m.view w = u) :
    Matches m Inv (.ok a w) (.ok a u)
  | error {e : Failure} {w : Workspace σ} {u : Workspace Unit} (events : w.events = u.events) :
    Matches m Inv (.error e w) (.error e u)

namespace Matches

variable {m : Method σ} {Inv : Workspace σ → Prop}
variable {r : EStateM.Result Failure (Workspace σ) α} {a : α} {u : Workspace Unit} {e : Failure}

theorem of_ok (h : Matches m Inv r (.ok a u)) : ∃ w, r = .ok a w ∧ Inv w ∧ m.view w = u := by
  cases h with
  | ok kept view => exact ⟨_, rfl, kept, view⟩

/-- What a method answers with, its naming answers with, too. -/
theorem right_of_ok {v : EStateM.Result Failure (Workspace Unit) α} {w : Workspace σ}
    (h : Matches m Inv (.ok a w) v) : v = .ok a (m.view w) ∧ Inv w := by
  cases h with
  | ok kept view => exact ⟨by rw [view], kept⟩

theorem of_error (h : Matches m Inv r (.error e u)) :
    ∃ w, r = .error e w ∧ w.events = u.events := by
  cases h with
  | error events => exact ⟨_, rfl, events⟩

end Matches

/-- The workspace before the first round. -/
def Naming.start (terminals : Nat) (text : Text) : Workspace Unit :=
  { text, tables := (), grammar := { terminals } }

/-- On a text over the alphabet, rounds end with at most one symbol, or the ids run out. -/
theorem Naming.rounds_start_outcome (n : Naming) {terminals : Nat} {text : Text}
    (short : text.length < idSpace) (small : terminals ≤ idSpace)
    (below : ∀ c ∈ text, c.toNat < terminals) :
    (∃ levels u, n.method.rounds 0 (start terminals text) = .ok levels u ∧
      Stage terminals text u.grammar u.text ∧ u.text.length ≤ 1) ∨
    ∃ e u, n.method.rounds 0 (start terminals text) = .error e u ∧ Exhausted terminals text e :=
  n.rounds_outcome 0 (w := start terminals text) (.start small below) short

/-- Seen in symbols of the grammar, the phases of the method are those of the naming. -/
structure Simulates (m : Method σ) (Inv : Workspace σ → Prop) (n : Naming) : Prop where
  length_restore : ∀ tables text, (m.restore tables text).length = text.length
  inv_report : ∀ w e, Inv w → Inv (w.report e)
  prepare_inside : ∀ tables terminals text, (∀ c ∈ text, c.toNat < terminals) →
    ∃ w, m.prepare terminals { text, tables, grammar := { terminals } } = .ok () w ∧ Inv w ∧
      m.view w = Naming.start terminals text
  /-- The first symbol outside the alphabet is reported, and the workspace stays as it is. -/
  prepare_outside : ∀ tables terminals text c, text.find? (terminals ≤ ·.toNat) = some c →
    m.prepare terminals { text, tables, grammar := { terminals } } =
      .error (.outsideAlphabet c.toNat terminals) { text, tables, grammar := { terminals } }
  replaceRuns : ∀ {terminals source w}, source.length < idSpace → Inv w →
    Stage terminals source w.grammar (m.view w).text →
      Matches m Inv (m.replaceRuns w) (n.method.replaceRuns (m.view w))
  replacePairs : ∀ {terminals source w}, source.length < idSpace → Inv w →
    Stage terminals source w.grammar (m.view w).text → (m.view w).text.Distinct →
      Matches m Inv (m.replacePairs w) (n.method.replacePairs (m.view w))

namespace Simulates

variable {m : Method σ} {Inv : Workspace σ → Prop} {n : Naming}
variable {terminals : Nat} {source text : Text} {w : Workspace σ}

theorem length_view (sim : Simulates m Inv n) (w : Workspace σ) :
    (m.view w).text.length = w.text.length :=
  sim.length_restore w.tables w.text

theorem view_afterRuns (sim : Simulates m Inv n) (level runs : Nat) (before w : Workspace σ) :
    Method.afterRuns level runs (m.view before).text.length (m.view w) =
      m.view (Method.afterRuns level runs before.text.length w) := by
  rw [Method.afterRuns, Method.afterRuns, sim.length_view, sim.length_view, Method.view_report]

/-- If more than one symbol is left of the runs, the second phase of the round matches as well. -/
theorem round_of_long (sim : Simulates m Inv n) {level count : Nat} {w₁ : Workspace σ}
    (small : source.length < idSpace) (done : m.replaceRuns w = .ok count w₁)
    (runs : n.method.replaceRuns (m.view w) = .ok count (m.view w₁)) (inv₁ : Inv w₁)
    (s₁ : Stage terminals source w₁.grammar (m.view w₁).text)
    (distinct : (m.view w₁).text.Distinct) (long : 1 < w₁.text.length) :
    Matches m Inv (m.round level w) (n.method.round level (m.view w)) := by
  let w₂ := Method.afterRuns level count w.text.length w₁
  have long' : 1 < (m.view w₁).text.length := (sim.length_view w₁).symm ▸ long
  have view₂ := sim.view_afterRuns level count w w₁
  have s₂ : Stage terminals source w₂.grammar (m.view w₂).text := s₁
  have inv₂ : Inv w₂ := sim.inv_report _ _ inv₁
  have pairsMatch := sim.replacePairs small inv₂ s₂ distinct
  have outcome := n.fold_outcome (w := m.view w₂) s₂
    ((Partition.ofText (m.view w₂).text).spells_pairPieces (m.view w₂).text)
  obtain ⟨u₃, pairs, _⟩ | ⟨e, pairs, _⟩ := outcome
  · have naming : n.method.replacePairs (m.view w₂) = _ := pairs
    rw [naming] at pairsMatch
    obtain ⟨w₃, done', inv₃, rfl⟩ := pairsMatch.of_ok
    rw [← view₂] at naming
    rw [Method.round_of_pairs_ok done long done', Method.round_of_pairs_ok runs long' naming,
      sim.length_view w₁, sim.length_view w₃, ← Method.view_report]
    exact .ok (sim.inv_report _ _ inv₃) rfl
  · have naming : n.method.replacePairs (m.view w₂) = _ := pairs
    rw [naming] at pairsMatch
    obtain ⟨w₃, failed, events⟩ := pairsMatch.of_error
    rw [← view₂] at naming
    rw [Method.round_of_pairs_error done long failed,
      Method.round_of_pairs_error runs long' naming, view₂]
    exact .error events

/-- One round of the method is one round of the naming. -/
theorem round (sim : Simulates m Inv n) (level : Nat) (small : source.length < idSpace)
    (inv : Inv w) (s : Stage terminals source w.grammar (m.view w).text) :
    Matches m Inv (m.round level w) (n.method.round level (m.view w)) := by
  have spells := Text.spells_runPieces (Nat.lt_of_le_of_lt s.short small)
  have runsMatch := sim.replaceRuns small inv s
  obtain ⟨u₁, runs, s₁, _, distinct⟩ | ⟨e, runs, _⟩ := n.fold_outcome (w := m.view w) s spells
  · have naming : n.method.replaceRuns (m.view w) = _ := runs
    rw [naming] at runsMatch
    obtain ⟨w₁, done, inv₁, rfl⟩ := runsMatch.of_ok
    by_cases short : w₁.text.length ≤ 1
    · have short' : (m.view w₁).text.length ≤ 1 := (sim.length_view w₁).symm ▸ short
      rw [Method.round_of_short done short, Method.round_of_short naming short', sim.view_afterRuns]
      exact .ok (sim.inv_report _ _ inv₁) rfl
    · exact sim.round_of_long small done naming inv₁ s₁ (distinct (Text.isChain_first_runPieces _))
        (Nat.not_le.mp short)
  · have naming : n.method.replaceRuns (m.view w) = _ := runs
    rw [naming] at runsMatch
    obtain ⟨w₁, failed, events⟩ := runsMatch.of_error
    rw [Method.round_of_runs_error failed, Method.round_of_runs_error naming]
    exact .error events

/-- All rounds of the method are the rounds of the naming. -/
theorem rounds (sim : Simulates m Inv n) (level : Nat) (small : source.length < idSpace)
    (inv : Inv w) (s : Stage terminals source w.grammar (m.view w).text) :
    Matches m Inv (m.rounds level w) (n.method.rounds level (m.view w)) := by
  induction hk : w.text.length using Nat.strongRecOn generalizing w level with
  | ind k ih =>
      have before := sim.length_view w
      by_cases short : w.text.length ≤ 1
      · rw [Method.rounds_of_short short, Method.rounds_of_short (before ▸ short)]
        exact .ok inv rfl
      · have long := Nat.not_le.mp short
        have long' : 1 < (m.view w).text.length := before ▸ long
        have step := sim.round level small inv s
        have outcome := n.round_outcome level (w := m.view w) s small long'
        obtain ⟨u₁, done, s₁, shorter⟩ | ⟨e, u₁, failed, _⟩ := outcome
        · rw [done] at step
          obtain ⟨w₁, done', inv₁, rfl⟩ := step.of_ok
          have shorter' : w₁.text.length < w.text.length := by
            rwa [sim.length_view, sim.length_view] at shorter
          rw [Method.rounds_of_shorter long done' shorter',
            Method.rounds_of_shorter long' done shorter]
          exact ih w₁.text.length (hk ▸ shorter') (level + 1) inv₁ s₁ rfl
        · rw [failed] at step
          obtain ⟨w₁, failed', events⟩ := step.of_error
          rw [Method.rounds_of_error long failed', Method.rounds_of_error long' failed]
          exact .error events

/-! ### Whole compressions -/

variable {levels : Nat} {u : Workspace Unit} {e : Failure}

theorem compress_outside (sim : Simulates m Inv n) (tables : σ) (small : terminals ≤ idSpace)
    {c : Symbol} (found : text.find? (terminals ≤ ·.toNat) = some c) :
    m.compress tables terminals text = .error (.outsideAlphabet c.toNat terminals)
      { text, tables, grammar := { terminals } } :=
  Method.compress_of_prepare_error small (sim.prepare_outside tables terminals text c found)

theorem compress_ok (sim : Simulates m Inv n) (tables : σ) (short : text.length < idSpace)
    (small : terminals ≤ idSpace) (below : ∀ c ∈ text, c.toNat < terminals)
    (h : n.method.rounds 0 (Naming.start terminals text) = .ok levels u) :
    ∃ tables', m.compress tables terminals text = .ok u.rooted
      { text := u.text
        grammar := u.rooted
        tables := tables'
        events := u.events ++ [u.conclusion m.name levels] } := by
  obtain ⟨w, prepared, inv, view⟩ := sim.prepare_inside tables terminals text below
  have s : Stage terminals text (m.view w).grammar (m.view w).text := by
    rw [view]
    exact .start small below
  have matched := sim.rounds 0 short inv s
  rw [view, h] at matched
  obtain ⟨w₁, done, _, rfl⟩ := matched.of_ok
  refine ⟨w₁.tables, ?_⟩
  rw [Method.compress_of_rounds_ok small prepared done, Method.finish_eq]
  rfl

theorem compress_error (sim : Simulates m Inv n) (tables : σ) (short : text.length < idSpace)
    (small : terminals ≤ idSpace) (below : ∀ c ∈ text, c.toNat < terminals)
    (h : n.method.rounds 0 (Naming.start terminals text) = .error e u) :
    ∃ w, m.compress tables terminals text = .error e w ∧ w.events = u.events := by
  obtain ⟨w, prepared, inv, view⟩ := sim.prepare_inside tables terminals text below
  have s : Stage terminals text (m.view w).grammar (m.view w).text := by
    rw [view]
    exact .start small below
  have matched := sim.rounds 0 short inv s
  rw [view, h] at matched
  obtain ⟨w₁, failed, events⟩ := matched.of_error
  exact ⟨w₁, Method.compress_of_rounds_error small prepared failed, events⟩

end Simulates

end RunGrammar
