import Mathlib
import RunGrammar.Proofs.Compression.Draft
import RunGrammar.Proofs.Compression.Renaming
import RunGrammar.Proofs.Compression.Simulation

/-!
# Compression on a dense alphabet names rules in ascending order

Behind the mapping, the dense text is the text of the naming
`Naming.ascending`. Since the mapping is ascending, a phase reads the same
pieces, up to the names of their symbols, and sorts their rules in the same way.
The new entries of the mapping are the ids that the grammar hands out, larger
than all entries before, and pruning changes nothing that is seen from outside.
-/

namespace RunGrammar

namespace DenseAlphabet

open Alphabet (letter Dense)

/-- The dense text of a workspace with its mapping. -/
def denseOf (w : Workspace (Array Symbol)) : Dense := ⟨w.text, w.tables⟩

/-- The text is dense, and the grammar knows all letters. -/
structure Inv (w : Workspace (Array Symbol)) : Prop where
  fits : (denseOf w).Fits
  known : ∀ v ∈ w.tables, w.grammar.Known v

/-- Letters are different symbols of the grammar. -/
theorem Inv.size_le {w : Workspace (Array Symbol)} (inv : Inv w) :
    w.tables.size ≤ w.grammar.terminals + w.grammar.size := by
  by_contra large
  have inside : w.tables.size - 1 < w.tables.size := by omega
  have found : w.tables.toList[w.tables.size - 1]? = some w.tables[w.tables.size - 1] := by
    rw [Array.getElem?_toList, Array.getElem?_eq_getElem inside]
  have place := Alphabet.le_of_getElem?_ascending inv.fits.ascending found
  have known : w.tables[w.tables.size - 1].toNat < w.grammar.terminals + w.grammar.size :=
    inv.known _ (Array.getElem_mem inside)
  omega

section Phase

variable {w : Workspace (Array Symbol)} {pieces : List Piece}

/-- The rules of the phase, in dense symbols. -/
abbrev phaseRules (pieces : List Piece) : List Rule := rulesOf (groups (occurrences pieces))

variable (inv : Inv w) (spells : Spells pieces w.text)
variable (uniform : Rule.Uniform (pieces.filterMap Piece.rule?))

include inv spells

theorem operands_inside {r : Rule} (h : .folded r ∈ pieces) :
    ∀ a ∈ r.operands, a.toNat < w.tables.size :=
  fun a ha => inv.fits.inside a (spells.operand_mem h ha)

theorem rename_letter_inj {r s : Rule} (hr : .folded r ∈ pieces) (hs : .folded s ∈ pieces)
    (same : r.rename (letter w.tables) = s.rename (letter w.tables)) : r = s :=
  Rule.rename_inj inv.fits.ascendingOn.inj (fun _ => spells.operand_mem hr)
    (fun _ => spells.operand_mem hs) same

include uniform

/-- In symbols of the grammar, the rules of the phase are in ascending order, too. -/
theorem map_rename_phaseRules :
    (phaseRules pieces).map (Rule.rename (letter w.tables)) =
      Naming.sorted ((pieces.map (Piece.rename (letter w.tables))).filterMap Piece.rule?) := by
  have rules : phaseRules pieces = Naming.sorted (pieces.filterMap Piece.rule?) :=
    Naming.eq_sorted uniform (pairwise_rulesOf_groups uniform) fun r =>
      mem_rulesOf_groups.trans Piece.mem_filterMap_rule?_iff.symm
  have operands : ∀ r ∈ pieces.filterMap Piece.rule?, ∀ a ∈ r.operands, a ∈ w.text :=
    fun r hr _ => spells.operand_mem (Piece.mem_filterMap_rule?_iff.mp hr)
  rw [rules, Piece.filterMap_rule?_rename]
  exact (Naming.sorted_map_rename uniform inv.fits.ascendingOn operands).symm

/-- The draft in which all rules of the phase are enrolled. -/
theorem shows_phaseRules :
    ((groups (occurrences pieces)).foldl Draft.enrol
      (.start w.grammar w.tables pieces)).Shows w.grammar w.tables pieces (phaseRules pieces) := by
  refine Draft.Shows.foldl_enrol _ (Draft.shows_start _ _ _)
    (fun group hg => isGroup_of_mem_groups uniform hg)
    (fun r hr => operands_inside inv spells hr) ?_
  exact Rule.nodup_of_pairwise_before (pairwise_rulesOf_groups uniform)

omit uniform

variable {draft : Draft}
variable (shown : draft.Shows w.grammar w.tables pieces (phaseRules pieces))
variable (room : w.grammar.terminals + w.grammar.size + (phaseRules pieces).length ≤ idSpace)

include shown room

omit spells in
/-- New letters are larger than old ones. -/
theorem ascending_draft : draft.mapping.toList.Pairwise (· < ·) := by
  have value : ∀ i < (phaseRules pieces).length, (w.grammar.ruleId (w.grammar.size + i)).toNat =
      w.grammar.terminals + (w.grammar.size + i) := by
    intro i hi
    exact Grammar.ruleId_toNat (by omega)
  rw [shown.mapping_eq, List.pairwise_append]
  refine ⟨inv.fits.ascending, ?_, ?_⟩
  · rw [List.pairwise_map]
    apply List.pairwise_lt_range.imp_of_mem
    intro i j hi hj lt
    rw [UInt32.lt_iff_toNat_lt, value i (List.mem_range.mp hi), value j (List.mem_range.mp hj)]
    omega
  · intro v hv u hu
    obtain ⟨i, hi, rfl⟩ := List.mem_map.mp hu
    have known : v.toNat < w.grammar.terminals + w.grammar.size :=
      inv.known v (Array.mem_toList_iff.mp hv)
    rw [UInt32.lt_iff_toNat_lt, value i (List.mem_range.mp hi)]
    omega

omit room in
/-- No placeholder is left: every symbol of the draft has an entry in the mapping. -/
theorem inside_draft : ∀ c ∈ draft.text.toList, c.toNat < draft.mapping.size := by
  intro c hc
  rw [shown.text_eq] at hc
  rw [shown.size_mapping]
  obtain ⟨piece, member, rfl⟩ := List.mem_map.mp hc
  cases piece with
  | kept c =>
      have inside : c.toNat < w.tables.size := inv.fits.inside c (spells.kept_mem member)
      exact Nat.lt_add_right _ inside
  | folded r =>
      have created : r ∈ phaseRules pieces := mem_rulesOf_groups.mpr member
      have index := List.idxOf_lt_length_iff.mpr created
      rw [draftSymbol, if_pos created, UInt32.toNat_ofNat']
      apply Nat.lt_of_le_of_lt (Nat.mod_le _ _)
      omega

theorem fits_draft : (Dense.mk draft.text.toList draft.mapping).Fits :=
  ⟨ascending_draft inv shown room, inside_draft inv spells shown⟩

/-- What the draft stands for is the text that the naming leaves. -/
theorem plainText_draft : (Dense.mk draft.text.toList draft.mapping).plainText =
    (pieces.map (Piece.rename (letter w.tables))).map
      (Naming.symbolOf w.grammar ((phaseRules pieces).map (Rule.rename (letter w.tables)))) := by
  have size := inv.size_le
  show draft.text.toList.map (letter draft.mapping) = _
  rw [shown.text_eq, List.map_map, List.map_map]
  apply List.map_congr_left
  intro piece member
  cases piece with
  | kept c => exact shown.letter_old (inv.fits.inside c (spells.kept_mem member))
  | folded r =>
      have created : r ∈ phaseRules pieces := mem_rulesOf_groups.mpr member
      have index := List.idxOf_lt_length_iff.mpr created
      have renamed := idxOf_map (f := Rule.rename (letter w.tables)) created fun s hs same =>
        rename_letter_inj inv spells (mem_rulesOf_groups.mp hs) member same
      show letter draft.mapping (draftSymbol w.tables.size (phaseRules pieces) (.folded r)) =
        w.grammar.ruleId (w.grammar.size + _)
      rw [draftSymbol, if_pos created, shown.letter_new index (by omega), renamed]

omit spells room in
theorem known_draft : ∀ v ∈ draft.mapping, draft.grammar.Known v := by
  intro v hv
  rw [← Array.mem_toList_iff, shown.mapping_eq, List.mem_append] at hv
  rw [shown.grammar_eq]
  obtain old | new := hv
  · exact (inv.known v (Array.mem_toList_iff.mp old)).pushAll _
  · obtain ⟨i, hi, rfl⟩ := List.mem_map.mp new
    have index := List.mem_range.mp hi
    unfold Grammar.Known Grammar.ruleId
    rw [Grammar.terminals_pushAll, Grammar.size_pushAll, List.length_map, UInt32.toNat_ofNat']
    apply Nat.lt_of_le_of_lt (Nat.mod_le _ _)
    omega

end Phase

/-! ### A phase -/

variable {w : Workspace (Array Symbol)} {pieces : List Piece}

/-- The workspace after a phase with this draft. -/
def afterDraft (w : Workspace (Array Symbol)) (draft : Draft) : Workspace (Array Symbol) :=
  let dense := Alphabet.prune ⟨draft.text.toList, draft.mapping⟩
  { w with text := dense.text, tables := dense.mapping, grammar := draft.grammar }

theorem replace_of_none (none : occurrences pieces = []) : replace pieces w = .ok 0 w := by
  simp only [replace, none, List.isEmpty_nil, if_true, pure, EStateM.pure]

theorem replace_of_exhausted {e : Failure} (some : occurrences pieces ≠ [])
    (h : w.grammar.reserve (groups (occurrences pieces)).length = .error e) :
    replace pieces w = .error e w := by
  have nonempty : (occurrences pieces).isEmpty = false := by simpa using some
  simp only [replace, nonempty, Bool.false_eq_true, if_false, bind, EStateM.bind, Phase.reserve,
    Phase.check, h]

theorem replace_of_room (some : occurrences pieces ≠ [])
    (h : w.grammar.reserve (groups (occurrences pieces)).length = .ok ()) :
    replace pieces w = .ok (occurrences pieces).length
      (afterDraft w ((groups (occurrences pieces)).foldl Draft.enrol
        (.start w.grammar w.tables pieces))) := by
  have nonempty : (occurrences pieces).isEmpty = false := by simpa using some
  simp only [replace, nonempty, Bool.false_eq_true, if_false, bind, EStateM.bind, Phase.reserve,
    Phase.check, h]
  rfl

theorem length_occurrences (pieces : List Piece) :
    (occurrences pieces).length = Piece.foldedCount pieces := by
  rw [← Piece.length_filterMap_rule?, ← map_rule_occurrences, List.length_map]

/-- Where nothing is folded, the pieces are the symbols of the text. -/
theorem map_symbolOf_of_kept (f : Symbol → Symbol) (g : Grammar) (rules : List Rule)
    (kept : ∀ r, .folded r ∉ pieces) :
    (pieces.map (Piece.rename f)).map (Naming.symbolOf g rules) =
      (pieces.flatMap Piece.text).map f := by
  induction pieces with
  | nil => rfl
  | cons piece pieces ih =>
      have rest := ih fun r hr => kept r (by simp [hr])
      cases piece with
      | kept c =>
          rw [List.map_cons, List.map_cons, rest]
          rfl
      | folded r => exact absurd (List.mem_cons_self) (kept r)

theorem folded_notMem_of_none (none : occurrences pieces = []) (r : Rule) : .folded r ∉ pieces := by
  intro hr
  obtain ⟨p, found⟩ := List.getElem?_of_mem hr
  have member : ⟨r, p⟩ ∈ occurrences pieces := mem_occurrences.mpr found
  rw [none] at member
  cases member

theorem length_groups (uniform : Rule.Uniform (pieces.filterMap Piece.rule?)) :
    (groups (occurrences pieces)).length = (phaseRules pieces).length := by
  symm
  apply length_rulesOf
  intro group hg
  obtain ⟨r, h⟩ := isGroup_of_mem_groups uniform hg
  exact h.nonempty

section Matching

variable (inv : Inv w) (spells : Spells pieces w.text)
variable (uniform : Rule.Uniform (pieces.filterMap Piece.rule?))

include inv spells

theorem inv_afterDraft {draft : Draft}
    (shown : draft.Shows w.grammar w.tables pieces (phaseRules pieces))
    (room : w.grammar.terminals + w.grammar.size + (phaseRules pieces).length ≤ idSpace) :
    Inv (afterDraft w draft) := by
  have fits := fits_draft inv spells shown room
  refine ⟨fits.prune, ?_⟩
  intro v hv
  exact known_draft inv shown v (Dense.mem_of_mem_prune fits hv)

/-- Pruning is not seen from outside. -/
theorem view_afterDraft {draft : Draft}
    (shown : draft.Shows w.grammar w.tables pieces (phaseRules pieces))
    (room : w.grammar.terminals + w.grammar.size + (phaseRules pieces).length ≤ idSpace) :
    method.view (afterDraft w draft) =
      { method.view w with
        grammar := w.grammar.pushAll ((phaseRules pieces).map (Rule.rename (letter w.tables)))
        text := (pieces.map (Piece.rename (letter w.tables))).map
          (Naming.symbolOf w.grammar
            ((phaseRules pieces).map (Rule.rename (letter w.tables)))) } := by
  have pruned := Dense.plainText_prune (fits_draft inv spells shown room).inside
  rw [plainText_draft inv spells shown room] at pruned
  rw [← pruned, ← shown.grammar_eq]
  rfl

include uniform

/-- The naming asks for as many ids as the method has groups. -/
theorem reserve_order : Naming.ascending.reserve (method.view w).grammar (Naming.ascending.order
    ((pieces.map (Piece.rename (letter w.tables))).filterMap Piece.rule?)).length =
      w.grammar.reserve (groups (occurrences pieces)).length := by
  have number : (Naming.sorted ((pieces.map (Piece.rename (letter w.tables))).filterMap
      Piece.rule?)).length = (groups (occurrences pieces)).length := by
    rw [← map_rename_phaseRules inv spells uniform, List.length_map, length_groups uniform]
  exact congrArg w.grammar.reserve number

/-- If there are enough ids, the naming creates the rules of the phase. -/
theorem fold_rename_of_room
    (room : w.grammar.terminals + w.grammar.size + (phaseRules pieces).length ≤ idSpace) :
    Naming.ascending.fold (pieces.map (Piece.rename (letter w.tables))) (method.view w) =
      .ok (Piece.foldedCount pieces)
        { method.view w with
          grammar := w.grammar.pushAll ((phaseRules pieces).map (Rule.rename (letter w.tables)))
          text := (pieces.map (Piece.rename (letter w.tables))).map
            (Naming.symbolOf w.grammar
              ((phaseRules pieces).map (Rule.rename (letter w.tables)))) } := by
  rw [← length_groups uniform] at room
  have reserved := reserve_order inv spells uniform
  rw [Naming.reserve_grammar_fits _ _ room] at reserved
  rw [Naming.fold_of_reserve_ok reserved, Piece.foldedCount_rename,
    map_rename_phaseRules inv spells uniform]
  rfl

theorem replace_matches_of_none (none : occurrences pieces = [])
    (fits : w.grammar.terminals + w.grammar.size ≤ idSpace) :
    Matches method Inv (replace pieces w)
      (Naming.ascending.fold (pieces.map (Piece.rename (letter w.tables))) (method.view w)) := by
  have noRules : phaseRules pieces = [] := by simp [phaseRules, none, groups, rulesOf, groupKeys]
  have noneFolded : Piece.foldedCount pieces = 0 := by
    rw [← length_occurrences, none, List.length_nil]
  have folded := fold_rename_of_room inv spells uniform (by rw [noRules]; exact fits)
  rw [noneFolded, noRules, List.map_nil, map_symbolOf_of_kept _ _ _ (folded_notMem_of_none none),
    spells.flatMap_text] at folded
  rw [replace_of_none none, folded]
  exact .ok inv rfl

/-- A phase of the method is a phase of the naming. -/
theorem replace_matches (fits : w.grammar.terminals + w.grammar.size ≤ idSpace) :
    Matches method Inv (replace pieces w)
      (Naming.ascending.fold (pieces.map (Piece.rename (letter w.tables))) (method.view w)) := by
  by_cases none : occurrences pieces = []
  · exact replace_matches_of_none inv spells uniform none fits
  · by_cases room : w.grammar.terminals + w.grammar.size +
        (groups (occurrences pieces)).length ≤ idSpace
    · have reserved := Naming.reserve_grammar_fits w.grammar _ room
      have shown := shows_phaseRules inv spells uniform
      rw [length_groups uniform] at room
      rw [replace_of_room none reserved, length_occurrences,
        fold_rename_of_room inv spells uniform room]
      exact .ok (inv_afterDraft inv spells shown room) (view_afterDraft inv spells shown room)
    · have exhausted := Naming.reserve_grammar_exhausted w.grammar _ (Nat.not_le.mp room)
      have reserved := reserve_order inv spells uniform
      rw [exhausted] at reserved
      rw [replace_of_exhausted none exhausted, Naming.fold_of_reserve_error reserved]
      exact .error rfl

end Matching

/-! ### The simulation -/

theorem length_text_le {terminals : Nat} {source : Text}
    (s : Stage terminals source w.grammar (method.view w).text) :
    w.text.length ≤ source.length := by
  have short := s.short
  rwa [Method.view_text, method, List.length_map] at short

/-- The runs of the dense text are those of the text that it stands for. -/
theorem view_runPieces (inv : Inv w) : (method.view w).text.runPieces =
    w.text.runPieces.map (Piece.rename (letter w.tables)) :=
  Text.runPieces_map inv.fits.ascendingOn.inj

/-- Both texts are cut in the same way. -/
theorem view_pairPieces (inv : Inv w) (distinct : (method.view w).text.Distinct) :
    (Partition.ofText (method.view w).text).pairPieces (method.view w).text =
      ((Partition.ofText w.text).pairPieces w.text).map (Piece.rename (letter w.tables)) := by
  have plain : Text.Distinct w.text := by
    rw [Text.Distinct, Method.view_text, method, List.isChain_map] at distinct
    exact distinct.imp fun a b differ same => differ (congrArg _ same)
  apply Partition.pairPieces_map
  intro a ha b hb
  exact Partition.eligible_ofText_map plain inv.fits.ascendingOn ha hb

/-- The workspace before the first round. -/
def opening (terminals : Nat) (text : Text) : Workspace (Array Symbol) where
  text := (Alphabet.dense text).text
  tables := (Alphabet.dense text).mapping
  grammar := { terminals }

section Opening

variable {terminals : Nat} {text : Text} (below : ∀ c ∈ text, c.toNat < terminals)

include below

theorem prepare_of_below (tables : Array Symbol) :
    method.prepare terminals { text, tables, grammar := { terminals } } =
      .ok () (opening terminals text) := by
  simp only [method, prepare, bind, EStateM.bind, Phase.check,
    Alphabet.replaceLetters_of_below below]
  rfl

theorem inv_opening : Inv (opening terminals text) := by
  refine ⟨Alphabet.fits_dense text, ?_⟩
  intro v hv
  have member := Alphabet.mem_letters.mp (Array.mem_toList_iff.mpr hv)
  exact Nat.lt_of_lt_of_le (below v member) (Nat.le_add_right _ _)

end Opening

theorem view_opening (terminals : Nat) (text : Text) :
    method.view (opening terminals text) = Naming.start terminals text := by
  have plain := Alphabet.plainText_dense text
  show (⟨(Alphabet.dense text).plainText, { terminals }, (), []⟩ : Workspace Unit) = _
  rw [plain]
  rfl

theorem simulates : Simulates method Inv .ascending where
  length_restore _ _ := List.length_map _
  inv_report _ _ inv := ⟨inv.fits, inv.known⟩
  prepare_inside tables terminals text below :=
    ⟨_, prepare_of_below below tables, inv_opening below, view_opening terminals text⟩
  prepare_outside tables terminals text c found := by
    simp only [method, prepare, bind, EStateM.bind, Phase.check,
      Alphabet.replaceLetters_of_find? found]
  replaceRuns {_ _ w} small inv s := by
    have spells := Text.spells_runPieces (Nat.lt_of_le_of_lt (length_text_le s) small)
    have matched := replace_matches inv spells w.text.uniform_runPieces s.arena.fits
    rw [← view_runPieces inv] at matched
    exact matched
  replacePairs {_ _ w} _ inv s distinct := by
    have matched := replace_matches inv ((Partition.ofText w.text).spells_pairPieces w.text)
      ((Partition.ofText w.text).uniform_pairPieces w.text) s.arena.fits
    rw [← view_pairPieces inv distinct] at matched
    exact matched

end DenseAlphabet

end RunGrammar
