import Mathlib
import RunGrammar.Proofs.Compression.Totality
import RunGrammar.Proofs.Grammar.Reading

/-!
# Compression loses nothing

A grammar that a compressor answers with is the grammar of the last stage, where
at most one symbol is left of the text. That symbol stands for the whole source,
and everything that is recorded about the grammar follows from the stage: its
rules are in order, and no length has been cut off, since no rule stands for
more than the source.
-/

namespace RunGrammar

/-- A sound grammar with exact lengths whose text is this one. -/
structure Derives (g : Grammar) (terminals : Nat) (text : Text) : Prop where
  /-- Read symbol by symbol, the grammar gives the text and then ends. -/
  yields : Cursor.Yields g (.start g) text
  terminals_eq : g.terminals = terminals
  valid : g.validate = .ok ()
  /-- The recorded length of every rule is the length of its expansion. -/
  length_eq : ∀ (k : Nat) (entry : SizedRule), g.rules[k]? = some entry →
    entry.length = (g.expand (g.ruleId k)).length
  textLength_eq : g.textLength = text.length
  isEmpty_iff : g.isEmpty = true ↔ text = []

namespace Workspace

variable {terminals : Nat} {source : Text} {u : Workspace Unit}

@[simp] theorem root_rooted (u : Workspace Unit) : u.rooted.root = u.text.head? := rfl

theorem rule?_rooted (u : Workspace Unit) (v : Symbol) : u.rooted.rule? v = u.grammar.rule? v := rfl

theorem expand_rooted (u : Workspace Unit) (v : Symbol) : u.rooted.expand v = u.grammar.expand v :=
  Grammar.expand_congr u.rule?_rooted v

theorem toList_root_rooted (last : u.text.length ≤ 1) : u.rooted.root.toList = u.text := by
  rw [root_rooted]
  match u.text, last with
  | [], _ => rfl
  | [v], _ => rfl

end Workspace

namespace Stage

variable {terminals : Nat} {source text : Text} {g : Grammar} {u : Workspace Unit}

/-- The length of a rule is recorded as it is. -/
theorem entry_length (s : Stage terminals source g text) (short : source.length < idSpace)
    {k : Nat} {entry : SizedRule} (found : g.rules[k]? = some entry) :
    entry.length = (g.expand (g.ruleId k)).length := by
  have bounded : k < g.size := (Array.getElem?_eq_some_iff.mp found).1
  have fits := s.arena.fits
  have rule : g.rule? (g.ruleId k) = some entry.rule := by
    rw [Grammar.rule?, Grammar.entry?_ruleId (by omega), found]
    rfl
  have member : entry.rule ∈ g.bareRules :=
    List.mem_map_of_mem (List.mem_of_getElem? (Array.getElem?_toList ▸ found))
  have inside := s.inside entry.rule member
  have : idSpace < lengthCap := by decide
  rw [s.sized k entry found, Grammar.expand_of_rule? s.arena.ordered rule,
    Nat.min_eq_left (by omega)]

/-- In the last stage the root stands for the source. -/
theorem expand_root (s : Stage terminals source u.grammar u.text) (last : u.text.length ≤ 1) :
    u.rooted.root.toList.flatMap u.rooted.expand = source := by
  rw [u.toList_root_rooted last, ← s.expands]
  apply List.flatMap_congr
  intro v _
  exact u.expand_rooted v

theorem textLength_rooted (s : Stage terminals source u.grammar u.text) (last : u.text.length ≤ 1)
    (short : source.length < idSpace) : u.rooted.textLength = source.length := by
  have expands := s.expand_root last
  rw [Grammar.textLength]
  cases symbol : u.rooted.root with
  | none =>
      rw [← expands, symbol]
      rfl
  | some v =>
      have known := s.known v (List.mem_of_head? symbol)
      have sized : u.rooted.length v = min (u.grammar.expand v).length lengthCap :=
        s.sized.length_eq s.arena.ordered known
      rw [symbol, Option.toList_some, List.flatMap_singleton, u.expand_rooted] at expands
      have : idSpace < lengthCap := by decide
      rw [Option.elim_some, sized, expands, Nat.min_eq_left (by omega)]

theorem isEmpty_rooted (s : Stage terminals source u.grammar u.text) (last : u.text.length ≤ 1) :
    u.rooted.isEmpty = true ↔ source = [] := by
  have ordered : u.rooted.Ordered := s.arena.ordered
  have expands := s.expand_root last
  rw [Grammar.isEmpty, Option.isNone_iff_eq_none]
  cases symbol : u.rooted.root with
  | none =>
      rw [symbol] at expands
      simp [← expands]
  | some v =>
      rw [symbol, Option.toList_some, List.flatMap_singleton] at expands
      simp [← expands, ordered.expand_ne_nil v]

/-- The last stage holds a grammar of the source. -/
theorem derives (s : Stage terminals source u.grammar u.text) (last : u.text.length ≤ 1)
    (short : source.length < idSpace) : Derives u.rooted terminals source := by
  have ordered : u.rooted.Ordered := s.arena.ordered
  have known : ∀ v, u.rooted.root = some v → u.rooted.Known v := fun v hv =>
    s.known v (List.mem_of_head? hv)
  refine
    { yields := s.expand_root last ▸ Cursor.yields_start ordered known
      terminals_eq := s.terminals_eq
      valid := Grammar.validate_eq_ok_iff.mpr ⟨ordered, known⟩
      length_eq := ?_
      textLength_eq := s.textLength_rooted last short
      isEmpty_iff := s.isEmpty_rooted last }
  intro k entry found
  rw [u.expand_rooted]
  exact s.entry_length short found

end Stage

namespace Compressor

/-- Whenever a compressor answers with a grammar, it is a grammar of the text, and its root is all
that is left of the text. -/
theorem compress_lossless (c : Compressor) (terminals : Nat) (text : Text)
    (short : text.length < idSpace) (g : Grammar)
    (done : (c.compress terminals text).1.result = .ok g) :
    Derives g terminals text ∧ (c.compress terminals text).1.text = g.root.toList := by
  obtain large | small := Nat.lt_or_ge idSpace terminals
  · rw [c.compress_of_terminals text large] at done
    cases done
  · by_cases below : ∀ a ∈ text, a.toNat < terminals
    · obtain ⟨u, stage, last, result, left⟩ | ⟨e, result, _⟩ :=
        c.compress_of_inside short small below
      · rw [result] at done
        cases done
        exact ⟨stage.derives last short, left.trans (u.toList_root_rooted last).symm⟩
      · rw [result] at done
        cases done
    · push Not at below
      obtain ⟨a, _, _, found⟩ := Alphabet.exists_find?_of_outside below
      rw [c.compress_of_outside small found] at done
      cases done

/-- A run of one letter beside another one. -/
theorem compress_lossless_run : ([7, 7, 7, 2] : Text).length < idSpace ∧
    ∃ g, ((firstSeen ∅).compress 8 [7, 7, 7, 2]).1.result = .ok g ∧
      Derives g 8 [7, 7, 7, 2] := by
  have short : ([7, 7, 7, 2] : Text).length < idSpace := by decide
  obtain ⟨g, done⟩ : ∃ g, ((firstSeen ∅).compress 8 [7, 7, 7, 2]).1.result = .ok g :=
    exists_result_of_room _ short (by simp) (by simp [idSpace])
  exact ⟨short, g, done, (compress_lossless (firstSeen ∅) 8 [7, 7, 7, 2] short g done).1⟩

end Compressor

end RunGrammar
