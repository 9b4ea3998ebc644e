import Mathlib
import RunGrammar.Proofs.Alphabet.Bound
import RunGrammar.Proofs.Compression.RuleOrder
import RunGrammar.Proofs.Compression.Scanners
import RunGrammar.Proofs.Compression.Simulation
import RunGrammar.Proofs.Partition.Invariance
import RunGrammar.Proofs.Text.Ascending

/-!
# Compression in chunks names rules in ascending order

The scans of all chunks show the pieces of the text, so the rules that they
collect are those of the phase, and the number of rules before a rule is its
place in ascending order. Neither the number of chunks nor the way in which the
rules are sorted occurs in the naming that is simulated, hence they do not show in
any answer.
-/

namespace RunGrammar.Chunked

variable {ruleOf : Span → Rule} {text : Text} {scans : List Scan} {parts : List (List Piece)}
variable (sorter : Sorter Rule.le)

/-- The rules of all scans are the rules of the phase, however they are sorted. -/
theorem collectRules_eq (shown : List.Forall₂ (Scan.Shows ruleOf text) scans parts)
    (uniform : Rule.Uniform (parts.flatten.filterMap Piece.rule?)) :
    collectRules sorter ruleOf scans = Naming.sorted (parts.flatten.filterMap Piece.rule?) := by
  let found := parts.flatten.filterMap Piece.rule?
  have keys : collectRules sorter ruleOf scans =
      groupKeys id ((sorter.sort found).splitBy fun r s => id r == id s) := by
    simp only [collectRules, found, flatMap_found shown, groupKeys, Option.map_id, id]
  have order : (sorter.sort found).Pairwise fun r s => r = s ∨ r.Before s :=
    Rule.pairwise_of_ascending (uniform.sublist fun r hr => (sorter.perm found).mem_iff.mp hr)
      (sorter.ascending found)
  rw [keys]
  refine Naming.eq_sorted uniform ?_ fun r => ?_
  · exact pairwise_groupKeys (pairwise_splitBy Rule.before_trans order)
  · rw [mem_groupKeys_splitBy]
    simp only [id, exists_eq_right]
    exact (sorter.perm found).mem_iff

/-- However the rules are sorted, they are replaced in the same way. -/
theorem replace_eq (sorter' : Sorter Rule.le)
    (shown : List.Forall₂ (Scan.Shows ruleOf text) scans parts)
    (uniform : Rule.Uniform (parts.flatten.filterMap Piece.rule?)) :
    replace sorter ruleOf text.toArray scans = replace sorter' ruleOf text.toArray scans := by
  simp only [replace, collectRules_eq sorter shown uniform, collectRules_eq sorter' shown uniform]

/-- The number of rules before a rule gives its symbol. -/
theorem base_add_frontLength {g : Grammar} {rules : List Rule} (sorted : rules.Pairwise Rule.Before)
    {r : Rule} (member : r ∈ rules) :
    g.nextId + .ofNat (frontLength (fun s => !r.le s) rules.toArray) =
      g.ruleId (g.size + rules.idxOf r) := by
  have place : frontLength (fun s => !r.le s) rules.toArray = rules.idxOf r := by
    apply frontLength_eq_idxOf sorted member (fun s _ h => Rule.not_le_iff.mpr h)
    · exact Bool.eq_false_iff.mpr fun h => Rule.before_irrefl r (Rule.not_le_iff.mp h)
    · intro s _ h
      exact Bool.eq_false_iff.mpr fun h' =>
        Rule.before_irrefl r (Rule.before_trans r s r h (Rule.not_le_iff.mp h'))
  rw [place, Grammar.nextId, Grammar.ruleId, ← UInt32.ofNat_add, Nat.add_assoc]

theorem leave_eq_symbolOf {g : Grammar} {rules : List Rule} {pieces : List Piece}
    (sorted : rules.Pairwise Rule.Before) (mem : ∀ r, r ∈ rules ↔ .folded r ∈ pieces) :
    pieces.map (Piece.leave fun r =>
      g.nextId + .ofNat (frontLength (fun s => !r.le s) rules.toArray)) =
        pieces.map (Naming.symbolOf g rules) := by
  apply List.map_congr_left
  intro piece member
  cases piece with
  | kept c => rfl
  | folded r => exact base_add_frontLength sorted ((mem r).mpr member)

theorem length_found (shown : List.Forall₂ (Scan.Shows ruleOf text) scans parts) :
    (scans.flatMap fun scan => scan.found.toList).length = Piece.foldedCount parts.flatten := by
  rw [← Piece.length_filterMap_rule?, ← flatMap_found shown, ← List.map_flatMap, List.length_map]

/-- What the chunks write is what the naming leaves. -/
theorem flatMap_write_eq (g : Grammar) (shown : List.Forall₂ (Scan.Shows ruleOf text) scans parts)
    (uniform : Rule.Uniform (parts.flatten.filterMap Piece.rule?)) :
    (scans.flatMap fun scan => (scan.write text.toArray fun s =>
      g.nextId + .ofNat (frontLength (fun r => !(ruleOf s).le r)
        (collectRules sorter ruleOf scans).toArray)).toList) =
      parts.flatten.map (Naming.symbolOf g (collectRules sorter ruleOf scans)) := by
  have rules := collectRules_eq sorter shown uniform
  have written := flatMap_write shown fun r =>
    g.nextId + .ofNat (frontLength (fun s => !r.le s) (collectRules sorter ruleOf scans).toArray)
  rw [written]
  apply leave_eq_symbolOf
  · rw [rules]
    exact Naming.pairwise_sorted uniform
  · intro r
    rw [rules, Naming.mem_sorted, Piece.mem_filterMap_rule?_iff]

theorem replace_of_exhausted {w : Workspace Unit} {e : Failure}
    (h : w.grammar.reserve (collectRules sorter ruleOf scans).length = .error e) :
    replace sorter ruleOf text.toArray scans w = .error e w := by
  simp only [replace, bind, EStateM.bind, Phase.reserve, Phase.check, h]

theorem replace_of_room {w : Workspace Unit}
    (shown : List.Forall₂ (Scan.Shows ruleOf text) scans parts)
    (uniform : Rule.Uniform (parts.flatten.filterMap Piece.rule?))
    (h : w.grammar.reserve (collectRules sorter ruleOf scans).length = .ok ()) :
    replace sorter ruleOf text.toArray scans w = .ok (Piece.foldedCount parts.flatten)
      { w with
        grammar := w.grammar.pushAll (collectRules sorter ruleOf scans)
        text :=
          parts.flatten.map (Naming.symbolOf w.grammar (collectRules sorter ruleOf scans)) } := by
  simp only [replace, bind, EStateM.bind, Phase.reserve, Phase.check, h, get, getThe,
    MonadStateOf.get, EStateM.get, modify, modifyGet, MonadStateOf.modifyGet, EStateM.modifyGet,
    pure, EStateM.pure, length_found shown, flatMap_write_eq sorter w.grammar shown uniform]

/-- A phase of the method is a phase of the naming. -/
theorem replace_matches (count : Nat) (w : Workspace Unit)
    (shown : List.Forall₂ (Scan.Shows ruleOf text) scans parts)
    (uniform : Rule.Uniform (parts.flatten.filterMap Piece.rule?)) :
    Matches (method count) (fun _ => True) (replace sorter ruleOf text.toArray scans w)
      (Naming.ascending.fold parts.flatten ((method count).view w)) := by
  have rules : collectRules sorter ruleOf scans =
      Naming.ascending.order (parts.flatten.filterMap Piece.rule?) :=
    collectRules_eq sorter shown uniform
  cases reserved : w.grammar.reserve (collectRules sorter ruleOf scans).length with
  | error e =>
      rw [replace_of_exhausted sorter reserved]
      rw [rules] at reserved
      rw [Naming.fold_of_reserve_error (n := .ascending) (w := (method count).view w) reserved]
      exact .error rfl
  | ok _ =>
      rw [replace_of_room sorter shown uniform reserved, rules]
      rw [rules] at reserved
      rw [Naming.fold_of_reserve_ok (n := .ascending) (w := (method count).view w) reserved]
      exact .ok trivial rfl

/-! ### The pieces of the chunks -/

/-- The chunks find the runs of the text. -/
theorem shows_runs (count : Nat) (text : Text) :
    ∃ parts, List.Forall₂ (Scan.Shows (runRule text.toArray) text)
      ((Chunk.split text.length count).map (scanRuns text.toArray)) parts ∧
        parts.flatten = text.runPieces :=
  (scanner_runs text).scans (Chunk.tile_split text.length count) .zero

/-- The chunks find the eligible pairs of the text. -/
theorem shows_pairs (count : Nat) (text : Text) :
    ∃ parts, List.Forall₂ (Scan.Shows (pairRule text.toArray) text)
      ((Chunk.split text.length count).map
        (scanPairs (Partition.ofTextIn count text) text.toArray)) parts ∧
        parts.flatten = (Partition.ofText text).pairPieces text := by
  rw [Partition.ofTextIn_eq_ofText]
  exact (scanner_pairs (Partition.ofText text) text).scans (Chunk.tile_split text.length count) rfl

/-- Whatever a sorter does, the first phase is the same. -/
theorem replaceRunsBy_eq (count : Nat) : replaceRunsBy sorter count = replaceRuns count := by
  funext w
  obtain ⟨parts, shown, joined⟩ := shows_runs count w.text
  have uniform := w.text.uniform_runPieces
  rw [← joined] at uniform
  exact congrFun (replace_eq sorter merging shown uniform) w

/-- And so is the second one. -/
theorem replacePairsBy_eq (count : Nat) : replacePairsBy sorter count = replacePairs count := by
  funext w
  obtain ⟨parts, shown, joined⟩ := shows_pairs count w.text
  have uniform := (Partition.ofText w.text).uniform_pairPieces w.text
  rw [← joined] at uniform
  exact congrFun (replace_eq sorter merging shown uniform) w

/-! ### The simulation -/

theorem replaceRuns_matches (count : Nat) (w : Workspace Unit) :
    Matches (method count) (fun _ => True) (replaceRuns count w)
      (Naming.ascending.fold w.text.runPieces ((method count).view w)) := by
  obtain ⟨parts, shown, joined⟩ := shows_runs count w.text
  have uniform := w.text.uniform_runPieces
  rw [← joined] at uniform ⊢
  exact replace_matches merging count w shown uniform

theorem replacePairs_matches (count : Nat) (w : Workspace Unit) :
    Matches (method count) (fun _ => True) (replacePairs count w)
      (Naming.ascending.fold ((Partition.ofText w.text).pairPieces w.text)
        ((method count).view w)) := by
  obtain ⟨parts, shown, joined⟩ := shows_pairs count w.text
  have uniform := (Partition.ofText w.text).uniform_pairPieces w.text
  rw [← joined] at uniform ⊢
  exact replace_matches merging count w shown uniform

theorem simulates (count : Nat) : Simulates (method count) (fun _ => True) .ascending where
  length_restore _ _ := rfl
  inv_report _ _ _ := trivial
  prepare_inside tables terminals text below := by
    refine ⟨{ text, tables, grammar := { terminals } }, ?_, trivial, rfl⟩
    simp only [method, prepare, Phase.check, List.size_toArray, Alphabet.checkIn_split,
      Alphabet.check_of_below below]
  prepare_outside tables terminals text c found := by
    simp only [method, prepare, Phase.check, List.size_toArray, Alphabet.checkIn_split,
      Alphabet.check_of_find? found]
  replaceRuns {_ _ w} _ _ _ := replaceRuns_matches count w
  replacePairs {_ _ w} _ _ _ _ := replacePairs_matches count w

end RunGrammar.Chunked
