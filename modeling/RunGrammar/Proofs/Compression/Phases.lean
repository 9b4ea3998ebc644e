import Mathlib
import RunGrammar.Proofs.Compression.Totality

/-!
# Single phases of a compressor

A phase can be run on any text and grammar, whatever happened before. This needs
no more than a compressor that is `Ready`: the grammar is valid, it knows the
symbols of the text, and there are fewer of both than ids. Dense symbols are
read through the mapping, which is strictly ascending and has an entry for each
of them.

All strategies then leave what their naming leaves (`Replaced`), if there are
ids for all rules of the phase. If there are not, the phase fails, and only the
strategy that names rules as they appear may have appended some of them.
-/

namespace RunGrammar

/-- What a phase leaves: its answer, the text and the grammar, and the compressor with its
tables. -/
structure Progress where
  result : Except Failure Nat
  text : Text
  grammar : Grammar
  compressor : Compressor

namespace Compressor

variable {c : Compressor} {g : Grammar} {text : Text}

/-- Reads off a workspace what a phase leaves. -/
def pause {σ : Type} (next : σ → Compressor) : EStateM.Result Failure (Workspace σ) Nat → Progress
  | .ok count w => ⟨.ok count, w.text, w.grammar, next w.tables⟩
  | .error e w => ⟨.error e, w.text, w.grammar, next w.tables⟩

/-- Runs a phase of the compressor's method on a text while a grammar is built. -/
def runPhase (phase : {σ : Type} → Method σ → Phase σ Nat) (g : Grammar) (text : Text) :
    Compressor → Progress
  | firstSeen names =>
    pause .firstSeen (phase FirstSeen.method { text, grammar := g, tables := names })
  | dense mapping =>
    pause .dense (phase DenseAlphabet.method { text, grammar := g, tables := mapping })
  | chunked parts =>
    pause (fun _ => .chunked parts)
      (phase (Chunked.method parts) { text, grammar := g, tables := () })

/-- Replaces the runs of a text. -/
def replaceRuns (g : Grammar) (text : Text) (c : Compressor) : Progress :=
  c.runPhase Method.replaceRuns g text

/-- Replaces the eligible pairs of a text. -/
def replacePairs (g : Grammar) (text : Text) (c : Compressor) : Progress :=
  c.runPhase Method.replacePairs g text

/-- The text in symbols of the grammar. -/
def read (text : Text) : Compressor → Text
  | dense mapping => text.map (Alphabet.letter mapping)
  | firstSeen _ | chunked _ => text

/-- The mapping of a dense text is strictly ascending, it has an entry for every symbol of the text,
and its entries are symbols of the grammar. Other compressors need no mapping. -/
def Mapped (g : Grammar) (text : Text) : Compressor → Prop
  | dense mapping => (Alphabet.Dense.mk text mapping).Fits ∧ ∀ v ∈ mapping, g.Known v
  | firstSeen _ | chunked _ => True

/-- A phase may be run on this text while this grammar is built. -/
structure Ready (c : Compressor) (g : Grammar) (text : Text) : Prop where
  short : text.length < idSpace
  valid : g.validate = .ok ()
  fits : g.terminals + g.size ≤ idSpace
  known : ∀ v ∈ c.read text, g.Known v
  mapped : c.Mapped g text

/-- A mapping into the symbols of the grammar is all that a dense text needs. -/
theorem ready_dense {mapping : Array Symbol} (short : text.length < idSpace)
    (valid : g.validate = .ok ()) (fits : g.terminals + g.size ≤ idSpace)
    (mapped : (dense mapping).Mapped g text) : (dense mapping).Ready g text where
  short := short
  valid := valid
  fits := fits
  known v hv := by
    obtain ⟨a, ha, rfl⟩ := List.mem_map.mp hv
    exact mapped.2 _ (mapped.1.letter_mem ha)
  mapped := mapped

theorem strategy_pause {σ : Type} {next : σ → Compressor} {s : Strategy}
    (same : ∀ tables, (next tables).strategy = s) (r : EStateM.Result Failure (Workspace σ) Nat) :
    (pause next r).compressor.strategy = s := by
  cases r with
  | ok count w => exact same w.tables
  | error e w => exact same w.tables

/-- A phase changes the tables of a compressor, not its strategy. -/
theorem strategy_runPhase (phase : {σ : Type} → Method σ → Phase σ Nat) (c : Compressor)
    (g : Grammar) (text : Text) : (c.runPhase phase g text).compressor.strategy = c.strategy := by
  cases c <;> exact strategy_pause (by intro; rfl) _

@[simp] theorem length_read (c : Compressor) (text : Text) :
    (c.read text).length = text.length := by
  cases c with
  | firstSeen names => rfl
  | dense mapping => exact List.length_map _
  | chunked parts => rfl

theorem Ready.short_read (ready : c.Ready g text) : (c.read text).length < idSpace := by
  rw [length_read]
  exact ready.short

theorem Ready.ordered (ready : c.Ready g text) : g.Ordered :=
  (Grammar.validate_eq_ok_iff.mp ready.valid).1

theorem Ready.inv {mapping : Array Symbol} (ready : (dense mapping).Ready g text) :
    DenseAlphabet.Inv { text, grammar := g, tables := mapping } :=
  ⟨ready.mapped.1, ready.mapped.2⟩

end Compressor

namespace Progress

/-- The text that is left, in symbols of the grammar. -/
def read (p : Progress) : Text := p.compressor.read p.text

/-- A phase shows what a naming leaves, and the tables fit what it shows. -/
def Follows (p : Progress) : EStateM.Result Failure (Workspace Unit) Nat → Prop
  | .ok count u => p.result = .ok count ∧ p.grammar = u.grammar ∧ p.read = u.text ∧
      p.compressor.Mapped p.grammar p.text
  | .error e _ => p.result = .error e

theorem follows_of_matches {σ : Type} {m : Method σ} {Inv : Workspace σ → Prop}
    {next : σ → Compressor} {r : EStateM.Result Failure (Workspace σ) Nat}
    {r' : EStateM.Result Failure (Workspace Unit) Nat} (matched : Matches m Inv r r')
    (reads : ∀ w : Workspace σ, (next w.tables).read w.text = m.restore w.tables w.text)
    (mapped : ∀ w : Workspace σ, Inv w → (next w.tables).Mapped w.grammar w.text) :
    (Compressor.pause next r).Follows r' := by
  cases matched with
  | ok kept view =>
      subst view
      exact ⟨rfl, rfl, reads _, mapped _ kept⟩
  | error events => rfl

end Progress

namespace Compressor

variable {c : Compressor} {g : Grammar} {text : Text}

/-! ### Both phases are those of the naming -/

/-- The workspace of the naming. -/
def shown (c : Compressor) (g : Grammar) (text : Text) : Workspace Unit :=
  { text := c.read text, grammar := g, tables := () }

theorem replaceRuns_follows (ready : c.Ready g text) :
    (c.replaceRuns g text).Follows
      (c.naming.fold (c.read text).runPieces (c.shown g text)) := by
  cases c with
  | firstSeen names =>
      have matched := FirstSeen.replace_matches { text, grammar := g, tables := names }
        text.runPieces (fun _ => Text.isBlock_of_mem_runPieces) ready.fits
      exact Progress.follows_of_matches matched (fun _ => rfl) fun _ _ => trivial
  | dense mapping =>
      have matched := DenseAlphabet.replace_matches ready.inv (Text.spells_runPieces ready.short)
        text.uniform_runPieces ready.fits
      rw [← DenseAlphabet.view_runPieces ready.inv] at matched
      exact Progress.follows_of_matches matched (fun _ => rfl) fun _ inv => ⟨inv.fits, inv.known⟩
  | chunked parts =>
      have matched := Chunked.replaceRuns_matches parts { text, grammar := g, tables := () }
      exact Progress.follows_of_matches matched (fun _ => rfl) fun _ _ => trivial

theorem replacePairs_follows (ready : c.Ready g text) (distinct : (c.read text).Distinct) :
    (c.replacePairs g text).Follows
      (c.naming.fold ((Partition.ofText (c.read text)).pairPieces (c.read text))
        (c.shown g text)) := by
  cases c with
  | firstSeen names =>
      have matched := FirstSeen.replace_matches { text, grammar := g, tables := names }
        ((Partition.ofText text).pairPieces text) (fun _ => Partition.isBlock_of_mem_pairPieces)
        ready.fits
      exact Progress.follows_of_matches matched (fun _ => rfl) fun _ _ => trivial
  | dense mapping =>
      have matched := DenseAlphabet.replace_matches ready.inv
        ((Partition.ofText text).spells_pairPieces text)
        ((Partition.ofText text).uniform_pairPieces text) ready.fits
      rw [← DenseAlphabet.view_pairPieces ready.inv distinct] at matched
      exact Progress.follows_of_matches matched (fun _ => rfl) fun _ inv => ⟨inv.fits, inv.known⟩
  | chunked parts =>
      have matched := Chunked.replacePairs_matches parts { text, grammar := g, tables := () }
      exact Progress.follows_of_matches matched (fun _ => rfl) fun _ _ => trivial

/-! ### What goes through -/

/-- The new rules of a phase that reads the text in these pieces. -/
def newRules (c : Compressor) (pieces : List Piece) : List Rule :=
  c.naming.order (pieces.filterMap Piece.rule?)

/-- The phase has replaced the folded pieces of the text and has counted them. -/
structure Replaced (c : Compressor) (g : Grammar) (text : Text) (pieces : List Piece)
    (count : Nat) (p : Progress) : Prop where
  replacement : Replacement g (c.read text) pieces (c.newRules pieces)
  count_eq : count = Piece.foldedCount pieces
  grammar_eq : p.grammar = g.pushAll (c.newRules pieces)
  read_eq : p.read = pieces.map (Naming.symbolOf g (c.newRules pieces))
  mapped : p.compressor.Mapped p.grammar p.text

variable {pieces : List Piece} {p : Progress} {count : Nat}

theorem replaced_of_follows (ready : c.Ready g text) (spells : Spells pieces (c.read text))
    (follows : p.Follows (c.naming.fold pieces (c.shown g text))) (done : p.result = .ok count) :
    c.Replaced g text pieces count p := by
  cases folded : c.naming.fold pieces (c.shown g text) with
  | error e u =>
      rw [folded] at follows
      cases done.symm.trans follows
  | ok count' u =>
      rw [folded] at follows
      obtain ⟨result, grammar, read, mapped⟩ := follows
      cases done.symm.trans result
      -- The naming has reserved as many ids as there are new rules.
      obtain ⟨reserved, count_eq, rfl⟩ := Naming.eq_of_fold_ok folded
      have small : g.terminals ≤ idSpace := Nat.le_trans (Nat.le_add_right _ _) ready.fits
      have fits := Naming.fits_of_reserve_ok (g := g) small reserved
      exact ⟨⟨ready.ordered, ready.known, spells, c.naming.covers pieces, fits⟩, count_eq, grammar,
        read, mapped⟩

/-- A phase goes through exactly if there are ids for all of its rules. -/
theorem exists_ok_iff_of_follows (ready : c.Ready g text)
    (follows : p.Follows (c.naming.fold pieces (c.shown g text))) :
    (∃ count, p.result = .ok count) ↔
      g.terminals + g.size + (c.newRules pieces).length ≤ idSpace := by
  have small : g.terminals ≤ idSpace := Nat.le_trans (Nat.le_add_right _ _) ready.fits
  constructor
  · rintro ⟨count, done⟩
    by_contra full
    obtain ⟨wanted, failed, _⟩ := c.naming.reserve_exhausted g _ small (Nat.not_le.mp full)
    have folded := Naming.fold_of_reserve_error (w := c.shown g text) failed
    rw [folded] at follows
    cases done.symm.trans follows
  · intro fits
    have folded := Naming.fold_of_reserve_ok (w := c.shown g text) (c.naming.reserve_fits g _ fits)
    rw [folded] at follows
    exact ⟨_, follows.1⟩

/-- After a phase the next one may be run. -/
theorem Replaced.ready (ready : c.Ready g text) (h : c.Replaced g text pieces count p) :
    p.compressor.Ready p.grammar p.text := by
  have saved := h.replacement.spells.length_add_foldedCount_le
  have length : p.text.length = pieces.length := by
    have := congrArg List.length h.read_eq
    rwa [Progress.read, length_read, List.length_map] at this
  have root := (Grammar.validate_eq_ok_iff.mp ready.valid).2
  -- The text got shorter, and the rules were appended to a valid grammar in order.
  refine ⟨?_, ?_, ?_, ?_, h.mapped⟩
  · have := ready.short_read
    omega
  · rw [h.grammar_eq, Grammar.validate_eq_ok_iff, Grammar.root_pushAll]
    exact ⟨h.replacement.ordered_pushAll, fun v hv => (root v hv).pushAll _⟩
  · rw [h.grammar_eq]
    exact h.replacement.fits_pushAll
  · change ∀ v ∈ p.read, _
    rw [h.read_eq, h.grammar_eq]
    exact h.replacement.known_text

/-- The text stands for what it stood for before. -/
theorem Replaced.expands (h : c.Replaced g text pieces count p) :
    p.read.flatMap p.grammar.expand = (c.read text).flatMap g.expand := by
  rw [h.read_eq, h.grammar_eq]
  exact h.replacement.expands

/-! ### The order of the new rules -/

/-- The order in which a compressor creates rules: as they appear among the keys of the phase, or
ascending. -/
def InOrder (keys : List Rule) (r s : Rule) : Compressor → Prop
  | firstSeen _ => keys.idxOf r < keys.idxOf s
  | dense _ | chunked _ => r.Before s

/-- To a grammar that stays as it is, these rules have been appended: the keys of a phase, each of
them once and in the order of the compressor. -/
structure Appended (c : Compressor) (keys rules : List Rule) (g g' : Grammar) : Prop where
  grammar_eq : g' = g.pushAll rules
  bareRules_eq : g'.bareRules = g.bareRules ++ rules
  kept : ∀ v, g.Known v → g'.rule? v = g.rule? v
  mem_iff : ∀ r, r ∈ rules ↔ r ∈ keys
  nodup : rules.Nodup
  inOrder : rules.Pairwise fun r s => c.InOrder keys r s

theorem pairwise_newRules (c : Compressor) (uniform : Rule.Uniform (pieces.filterMap Piece.rule?)) :
    (c.newRules pieces).Pairwise fun r s => c.InOrder (pieces.filterMap Piece.rule?) r s := by
  cases c with
  | firstSeen names => exact Naming.pairwise_appearance _
  | dense mapping => exact Naming.pairwise_sorted uniform
  | chunked parts => exact Naming.pairwise_sorted uniform

theorem Replaced.appended (h : c.Replaced g text pieces count p)
    (uniform : Rule.Uniform (pieces.filterMap Piece.rule?)) :
    c.Appended (pieces.filterMap Piece.rule?) (c.newRules pieces) g p.grammar where
  grammar_eq := h.grammar_eq
  bareRules_eq := by rw [h.grammar_eq, Grammar.bareRules_pushAll]
  kept v known := by rw [h.grammar_eq, Grammar.rule?_pushAll_of_known known]
  mem_iff := c.naming.mem_order _
  nodup := c.naming.nodup_order _
  inOrder := c.pairwise_newRules uniform

/-- Every key needs one id, however often it appears. -/
theorem length_newRules (c : Compressor) (pieces : List Piece) :
    (c.newRules pieces).length = (pieces.filterMap Piece.rule?).dedup.length := by
  have same : ∀ r, r ∈ c.newRules pieces ↔ r ∈ (pieces.filterMap Piece.rule?).dedup :=
    fun r => (c.naming.mem_order _ r).trans List.mem_dedup.symm
  exact ((List.perm_ext_iff_of_nodup (c.naming.nodup_order _) (List.nodup_dedup _)).mpr
    same).length_eq

end Compressor

/-! ### What does not go through -/

/-- A phase that fails has appended no rule. -/
def Phase.AllOrNone {σ α : Type} (x : Phase σ α) : Prop :=
  ∀ (w w' : Workspace σ) (e : Failure), x w = .error e w' → w'.grammar = w.grammar

theorem DenseAlphabet.allOrNone_replace (pieces : List Piece) : (replace pieces).AllOrNone := by
  intro w w' e failed
  by_cases none : occurrences pieces = []
  · cases (replace_of_none none).symm.trans failed
  · cases reserved : w.grammar.reserve (groups (occurrences pieces)).length with
    | error e' =>
        cases (replace_of_exhausted none reserved).symm.trans failed
        rfl
    | ok _ => cases (replace_of_room none reserved).symm.trans failed

theorem Chunked.allOrNone_replace (sorter : Sorter Rule.le) (ruleOf : Span → Rule)
    (text : Array Symbol) (scans : List Scan) :
    (replace sorter ruleOf text scans).AllOrNone := by
  intro w w' e failed
  cases reserved : w.grammar.reserve (collectRules sorter ruleOf scans).length with
  | error e' =>
      have exhausted : replace sorter ruleOf text.toList.toArray scans w = .error e' w :=
        replace_of_exhausted sorter reserved
      rw [Array.toArray_toList] at exhausted
      cases exhausted.symm.trans failed
      rfl
  | ok _ =>
      simp only [replace, bind, EStateM.bind, Phase.reserve, Phase.check, reserved, get, getThe,
        MonadStateOf.get, EStateM.get, modify, modifyGet, MonadStateOf.modifyGet,
        EStateM.modifyGet, pure, EStateM.pure] at failed
      cases failed

namespace Compressor

variable {c : Compressor} {g : Grammar} {text : Text}

theorem grammar_of_allOrNone {σ : Type} {x : Phase σ Nat} (whole : x.AllOrNone)
    (next : σ → Compressor) {w : Workspace σ} {e : Failure}
    (failed : (pause next (x w)).result = .error e) :
    (pause next (x w)).grammar = w.grammar := by
  cases done : x w with
  | ok count w' =>
      rw [done] at failed
      cases failed
  | error e' w' => exact whole w w' e' done

/-- Where ids are reserved ahead, a phase that fails has appended no rule. -/
theorem grammar_runPhase_of_error {phase : {σ : Type} → Method σ → Phase σ Nat}
    (dense : (phase DenseAlphabet.method).AllOrNone)
    (chunked : ∀ parts, (phase (Chunked.method parts)).AllOrNone)
    (ahead : c.strategy ≠ .firstSeen) {e : Failure}
    (failed : (c.runPhase phase g text).result = .error e) :
    (c.runPhase phase g text).grammar = g := by
  cases c with
  | firstSeen names => exact absurd rfl ahead
  | dense mapping => exact grammar_of_allOrNone dense .dense failed
  | chunked parts => exact grammar_of_allOrNone (chunked parts) (fun _ => .chunked parts) failed

theorem grammar_replaceRuns_of_error (ahead : c.strategy ≠ .firstSeen) {e : Failure}
    (failed : (c.replaceRuns g text).result = .error e) :
    (c.replaceRuns g text).grammar = g :=
  grammar_runPhase_of_error
    (fun w => DenseAlphabet.allOrNone_replace w.text.runPieces w)
    (fun _ w => Chunked.allOrNone_replace _ _ _ _ w) ahead failed

theorem grammar_replacePairs_of_error (ahead : c.strategy ≠ .firstSeen) {e : Failure}
    (failed : (c.replacePairs g text).result = .error e) :
    (c.replacePairs g text).grammar = g :=
  grammar_runPhase_of_error
    (fun w => DenseAlphabet.allOrNone_replace ((Partition.ofText w.text).pairPieces w.text) w)
    (fun _ w => Chunked.allOrNone_replace _ _ _ _ w) ahead failed

/-! ### An example -/

/-- Five terminals, a pair of two of them, and three copies of this pair. -/
def nested : Grammar where
  terminals := 5
  rules := #[⟨.pair 0 1, 2⟩, ⟨.block 5 3, 6⟩]

/-- A mapping that leads to two terminals and to the second rule. -/
theorem ready_nested (short : text.length < idSpace) (inside : ∀ c ∈ text, c.toNat < 3) :
    (dense #[1, 4, 6]).Ready nested text := by
  refine ready_dense short (by decide) (by decide) ⟨⟨?_, inside⟩, ?_⟩
  · show [(1 : Symbol), 4, 6].Pairwise (· < ·)
    decide
  · show ∀ v ∈ #[(1 : Symbol), 4, 6], v.toNat < 5 + 2
    simp

end Compressor

end RunGrammar
