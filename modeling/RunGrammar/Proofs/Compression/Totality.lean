import Mathlib
import RunGrammar.Proofs.Compression.Chunked
import RunGrammar.Proofs.Compression.Dense
import RunGrammar.Proofs.Compression.FirstSeen

/-!
# Every compression comes to an end

A compressor works with a method that simulates a naming, whatever it has kept
from the texts before. So the ways in which a compression can end are those of
the naming: there are too many terminals, or a symbol lies outside the alphabet,
or the ids run out, or there is a grammar. The ids suffice whenever there are
enough of them for the terminals and all symbols of the text but one.
-/

namespace RunGrammar

/-- What is reported of a finished run. -/
def Outcome.ofRun {σ : Type} : EStateM.Result Failure (Workspace σ) Grammar → Outcome
  | .ok g w => ⟨.ok g, w.text, w.events⟩
  | .error e w => ⟨.error e, w.text, w.events⟩

namespace Compressor

variable {terminals : Nat} {text : Text}

/-- How a compressor names the rules of a phase. -/
def naming : Compressor → Naming
  | firstSeen _ => .firstSeen
  | dense _ => .ascending
  | chunked _ => .ascending

/-- Whatever a compressor has kept from earlier texts, it carries out its naming, by the method of
its strategy. -/
theorem exists_simulates (c : Compressor) :
    ∃ (σ : Type) (m : Method σ) (Inv : Workspace σ → Prop) (tables : σ),
      Simulates m Inv c.naming ∧ m.name = c.strategy.name ∧
        ∀ terminals text, (c.compress terminals text).1 =
          .ofRun (m.compress tables terminals text) := by
  cases c with
  | firstSeen names =>
      refine ⟨_, _, _, names, FirstSeen.simulates, rfl, ?_⟩
      intro terminals text
      rw [compress]
      cases FirstSeen.method.compress names terminals text <;> rfl
  | dense mapping =>
      refine ⟨_, _, _, mapping, DenseAlphabet.simulates, rfl, ?_⟩
      intro terminals text
      rw [compress]
      cases DenseAlphabet.method.compress mapping terminals text <;> rfl
  | chunked parts =>
      refine ⟨_, _, _, (), Chunked.simulates parts, rfl, ?_⟩
      intro terminals text
      rw [compress]
      cases (Chunked.method parts).compress () terminals text <;> rfl

theorem compress_of_terminals (c : Compressor) (text : Text) (large : idSpace < terminals) :
    (c.compress terminals text).1 = ⟨.error (.idSpaceExhausted terminals 0), text, []⟩ := by
  obtain ⟨σ, m, _, tables, _, _, run⟩ := c.exists_simulates
  rw [run, m.compress_of_terminals tables text large]
  rfl

/-- A symbol outside the alphabet is reported before anything is changed. -/
theorem compress_of_outside (c : Compressor) (small : terminals ≤ idSpace) {a : Symbol}
    (found : text.find? (terminals ≤ ·.toNat) = some a) :
    (c.compress terminals text).1 = ⟨.error (.outsideAlphabet a.toNat terminals), text, []⟩ := by
  obtain ⟨σ, m, Inv, tables, sim, _, run⟩ := c.exists_simulates
  rw [run, sim.compress_outside tables small found]
  rfl

/-- If the rounds of its naming end well, a compressor answers with the grammar that they leave. -/
theorem compress_of_rounds_ok (c : Compressor) (short : text.length < idSpace)
    (small : terminals ≤ idSpace) (below : ∀ a ∈ text, a.toNat < terminals) {levels : Nat}
    {u : Workspace Unit}
    (h : c.naming.method.rounds 0 (Naming.start terminals text) = .ok levels u) :
    (c.compress terminals text).1 =
      ⟨.ok u.rooted, u.text, u.events ++ [u.conclusion c.strategy.name levels]⟩ := by
  obtain ⟨σ, m, Inv, tables, sim, named, run⟩ := c.exists_simulates
  obtain ⟨tables', compressed⟩ := sim.compress_ok tables short small below h
  rw [run, compressed, ← named]
  rfl

/-- If they fail, so does the compressor. -/
theorem compress_of_rounds_error (c : Compressor) (short : text.length < idSpace)
    (small : terminals ≤ idSpace) (below : ∀ a ∈ text, a.toNat < terminals) {e : Failure}
    {u : Workspace Unit}
    (h : c.naming.method.rounds 0 (Naming.start terminals text) = .error e u) :
    (c.compress terminals text).1.result = .error e := by
  obtain ⟨σ, m, Inv, tables, sim, _, run⟩ := c.exists_simulates
  obtain ⟨w, compressed, _⟩ := sim.compress_error tables short small below h
  rw [run, compressed]
  rfl

/-- A text over the alphabet gives a grammar at the last stage, or the ids run out. -/
theorem compress_of_inside (c : Compressor) (short : text.length < idSpace)
    (small : terminals ≤ idSpace) (below : ∀ a ∈ text, a.toNat < terminals) :
    (∃ u : Workspace Unit, Stage terminals text u.grammar u.text ∧ u.text.length ≤ 1 ∧
      (c.compress terminals text).1.result = .ok u.rooted ∧
      (c.compress terminals text).1.text = u.text) ∨
    ∃ e, (c.compress terminals text).1.result = .error e ∧ Exhausted terminals text e := by
  obtain ⟨levels, u, done, stage, last⟩ | ⟨e, u, failed, exhausted⟩ :=
    c.naming.rounds_start_outcome short small below
  · rw [c.compress_of_rounds_ok short small below done]
    exact .inl ⟨u, stage, last, rfl, rfl⟩
  · exact .inr ⟨e, c.compress_of_rounds_error short small below failed, exhausted⟩

/-- With ids for the terminals and for all symbols of the text but one there is a grammar. -/
theorem exists_result_of_room (c : Compressor) (short : text.length < idSpace)
    (below : ∀ a ∈ text, a.toNat < terminals)
    (room : terminals + max text.length 1 - 1 ≤ idSpace) :
    ∃ g, (c.compress terminals text).1.result = .ok g := by
  obtain ⟨u, _, _, result, _⟩ | ⟨e, _, wanted, _, full, few⟩ :=
    c.compress_of_inside short (by omega) below
  · exact ⟨u.rooted, result⟩
  · omega

/-- A text with symbols outside the alphabet stays as it is, and one of them is reported. -/
theorem outcome_of_outside (c : Compressor) (small : terminals ≤ idSpace)
    (outside : ∃ a ∈ text, terminals ≤ a.toNat) :
    ∃ a ∈ text, terminals ≤ a.toNat ∧
      (c.compress terminals text).1.result = .error (.outsideAlphabet a.toNat terminals) ∧
      (c.strategy ≠ .chunked → text.find? (terminals ≤ ·.toNat) = some a) ∧
      (c.compress terminals text).1.text = text := by
  obtain ⟨a, member, high, found⟩ := Alphabet.exists_find?_of_outside outside
  rw [c.compress_of_outside small found]
  exact ⟨a, member, high, rfl, fun _ => found, rfl⟩

theorem result_of_inside (c : Compressor) (short : text.length < idSpace)
    (small : terminals ≤ idSpace) (below : ∀ a ∈ text, a.toNat < terminals) :
    (∃ g, (c.compress terminals text).1.result = .ok g) ∨
    ∃ rules, (c.compress terminals text).1.result = .error (.idSpaceExhausted terminals rules) := by
  obtain ⟨u, _, _, result, _⟩ | ⟨e, result, rules, rfl, _⟩ := c.compress_of_inside short small below
  · exact .inl ⟨u.rooted, result⟩
  · exact .inr ⟨rules, result⟩

/-- Every round makes progress. -/
theorem result_ne_noProgress (c : Compressor) (short : text.length < idSpace) (level length : Nat) :
    (c.compress terminals text).1.result ≠ .error (.noProgress level length) := by
  obtain large | small := Nat.lt_or_ge idSpace terminals
  · rw [c.compress_of_terminals text large]
    simp
  · by_cases below : ∀ a ∈ text, a.toNat < terminals
    · obtain ⟨g, result⟩ | ⟨rules, result⟩ := c.result_of_inside short small below <;>
        rw [result] <;> simp
    · push Not at below
      obtain ⟨a, _, _, result, _⟩ := c.outcome_of_outside small below
      rw [result]
      simp

/-- Compression always comes to an answer, and never to a round without progress. More terminals
than ids are reported first, then a symbol outside the alphabet, with the text as it was. Otherwise
there is a grammar or the ids run out, which they do not if there is one for each terminal and
each symbol of the text but one. -/
theorem compress_total (c : Compressor) (terminals : Nat) (text : Text)
    (short : text.length < idSpace) :
    (idSpace < terminals →
      (c.compress terminals text).1.result = .error (.idSpaceExhausted terminals 0)) ∧
    (terminals ≤ idSpace → (∃ a ∈ text, terminals ≤ a.toNat) →
      ∃ a ∈ text, terminals ≤ a.toNat ∧
        (c.compress terminals text).1.result = .error (.outsideAlphabet a.toNat terminals) ∧
        (c.strategy ≠ .chunked → text.find? (terminals ≤ ·.toNat) = some a) ∧
        (c.compress terminals text).1.text = text) ∧
    (terminals ≤ idSpace → (∀ a ∈ text, a.toNat < terminals) →
      (∃ g, (c.compress terminals text).1.result = .ok g) ∨
      ∃ rules, (c.compress terminals text).1.result =
        .error (.idSpaceExhausted terminals rules)) ∧
    ((∀ a ∈ text, a.toNat < terminals) → terminals + max text.length 1 - 1 ≤ idSpace →
      ∃ g, (c.compress terminals text).1.result = .ok g) ∧
    ∀ level length, (c.compress terminals text).1.result ≠ .error (.noProgress level length) := by
  refine ⟨?_, ?_, ?_, ?_, ?_⟩
  · intro large
    rw [c.compress_of_terminals text large]
  · intro small outside
    exact c.outcome_of_outside small outside
  · intro small below
    exact c.result_of_inside short small below
  · intro below room
    exact c.exists_result_of_room short below room
  · intro level length
    exact c.result_ne_noProgress short level length

/-- Two letters in turn, cut into two chunks. -/
theorem compress_total_alternating :
    ([1, 0, 1] : Text).length < idSpace ∧ (∀ a ∈ ([1, 0, 1] : Text), a.toNat < 2) ∧
      ∃ g, ((chunked 2).compress 2 [1, 0, 1]).1.result = .ok g :=
  have short : ([1, 0, 1] : Text).length < idSpace := by decide
  have below : ∀ a ∈ ([1, 0, 1] : Text), a.toNat < 2 := by simp
  ⟨short, below, (compress_total (chunked 2) 2 [1, 0, 1] short).2.2.2.1 below (by simp [idSpace])⟩

end Compressor

end RunGrammar
