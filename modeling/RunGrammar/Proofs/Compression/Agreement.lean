import Mathlib
import RunGrammar.Proofs.Compression.Totality

/-!
# Strategies that agree

Two methods that simulate the same naming answer in the same way: with the same
grammar or the same failure, and with the same reports of every phase and round.
Compression on a dense alphabet and in chunks both name rules in ascending
order, so they agree, and the number of chunks does not matter.

Where chunks are tested at the same time, any of them may be the first to report
a symbol outside the alphabet. As long as there is only one such symbol, the
order makes no difference.
-/

namespace RunGrammar

/-- The event without the name of the method that reports it. -/
def Event.anonymous : Event → Event
  | .finished _ rules blocks levels textLength => .finished "" rules blocks levels textLength
  | e => e

/-- The same grammar, field by field, or the same failure; and the same events, hence the same
number of rounds. -/
structure Outcome.Agrees (o o' : Outcome) : Prop where
  result : o.result = o'.result
  events : o.events.map Event.anonymous = o'.events.map Event.anonymous

variable {σ σ' : Type} {m : Method σ} {m' : Method σ'} {Inv : Workspace σ → Prop}
variable {Inv' : Workspace σ' → Prop} {n : Naming} {terminals : Nat} {text : Text}

/-- Methods of one naming agree on every text. -/
theorem Simulates.agree (sim : Simulates m Inv n) (sim' : Simulates m' Inv' n)
    (short : text.length < idSpace) (tables : σ) (tables' : σ') :
    (Outcome.ofRun (m.compress tables terminals text)).Agrees
      (.ofRun (m'.compress tables' terminals text)) := by
  obtain large | small := Nat.lt_or_ge idSpace terminals
  · rw [m.compress_of_terminals tables text large, m'.compress_of_terminals tables' text large]
    exact ⟨rfl, rfl⟩
  · by_cases below : ∀ c ∈ text, c.toNat < terminals
    · have outcome := n.rounds_start_outcome short small below
      obtain ⟨levels, u, done, _⟩ | ⟨e, u, failed, _⟩ := outcome
      · obtain ⟨t, compressed⟩ := sim.compress_ok tables short small below done
        obtain ⟨t', compressed'⟩ := sim'.compress_ok tables' short small below done
        rw [compressed, compressed']
        refine ⟨rfl, ?_⟩
        simp [Outcome.ofRun, Workspace.conclusion, Event.anonymous]
      · obtain ⟨w, compressed, events⟩ :=
          sim.compress_error tables short small below failed
        obtain ⟨w', compressed', events'⟩ :=
          sim'.compress_error tables' short small below failed
        rw [compressed, compressed']
        refine ⟨rfl, ?_⟩
        simp only [Outcome.ofRun, events, events']
    · push Not at below
      obtain ⟨c, _, _, found⟩ := Alphabet.exists_find?_of_outside below
      rw [sim.compress_outside tables small found, sim'.compress_outside tables' small found]
      exact ⟨rfl, rfl⟩

namespace Compressor

/-- Compressors with the same naming agree. -/
theorem agrees_of_naming (c c' : Compressor) (same : c.naming = c'.naming)
    (short : text.length < idSpace) :
    (c.compress terminals text).1.Agrees (c'.compress terminals text).1 := by
  obtain ⟨σ, m, Inv, tables, sim, _, run⟩ := c.exists_simulates
  obtain ⟨σ', m', Inv', tables', sim', _, run'⟩ := c'.exists_simulates
  rw [run, run']
  exact sim.agree (same ▸ sim') short tables tables'

/-- With at most one different symbol outside the alphabet, dense and chunked compression agree,
and neither the number of chunks nor the order in which they are tested matters. -/
theorem compress_dense_agrees_chunked (terminals : Nat) (text : Text)
    (short : text.length < idSpace)
    (one : ∀ a ∈ text, ∀ b ∈ text, terminals ≤ a.toNat → terminals ≤ b.toNat → a = b) :
    (∀ mapping parts, ((dense mapping).compress terminals text).1.Agrees
      ((chunked parts).compress terminals text).1) ∧
    (∀ parts parts', ((chunked parts).compress terminals text).1.Agrees
      ((chunked parts').compress terminals text).1) ∧
    ∀ parts (chunks : List Chunk), chunks.Perm (Chunk.split text.length parts) →
      Alphabet.checkIn chunks text.toArray terminals = Alphabet.check text terminals := by
  refine ⟨fun mapping parts => agrees_of_naming (dense mapping) (chunked parts) rfl short,
    fun parts parts' => agrees_of_naming (chunked parts) (chunked parts') rfl short,
    fun parts chunks perm => ?_⟩
  rw [← Alphabet.checkIn_split parts]
  apply Alphabet.checkIn_perm perm
  rwa [Chunk.flatMap_slice_split]

/-- Three chunks, and one symbol outside the alphabet. -/
theorem compress_dense_agrees_chunked_outside : ([0, 3, 1, 3] : Text).length < idSpace ∧
    ((dense #[]).compress 2 [0, 3, 1, 3]).1.Agrees ((chunked 3).compress 2 [0, 3, 1, 3]).1 := by
  have short : ([0, 3, 1, 3] : Text).length < idSpace := by decide
  have one : ∀ a ∈ ([0, 3, 1, 3] : Text), ∀ b ∈ ([0, 3, 1, 3] : Text),
      2 ≤ a.toNat → 2 ≤ b.toNat → a = b := by simp
  exact ⟨short, (compress_dense_agrees_chunked 2 [0, 3, 1, 3] short one).1 #[] 3⟩

end Compressor

end RunGrammar
