import Mathlib
import RunGrammar.Proofs.Compression.Course
import RunGrammar.Proofs.Compression.Lossless

/-!
# Different rules stand for different texts

The rules met in a phase are forgotten when the phase ends, so nothing in a phase
compares a new rule with the rules of earlier phases. Yet no two symbols of a
grammar that compression builds stand for the same text.

The reason is that both readings are coherent: how a part of a text is read
depends on that part alone, provided that it begins and ends where pieces do. So
if parts of the text that is left stand for the same part of the source, they
were read in the same way in every phase, and are equal. A symbol that was
created earlier and is absorbed by now is covered by the same argument in the
text of its own time, which is why `Unambiguous.symbols` speaks of all symbols
of the grammar and not of those in the text.
-/

namespace RunGrammar

/-! ### Readings are coherent -/

/-- Parts of a reading that cover the same text are the same. -/
def Coherent (pieces : List Piece) : Prop :=
  ∀ part other, part <:+: pieces → other <:+: pieces →
    part.flatMap Piece.text = other.flatMap Piece.text → part = other

theorem Run.Maximal.within {runs part : List Run} (maximal : Maximal runs) (h : part <:+: runs) :
    Maximal part where
  nonempty r hr := maximal.nonempty r (h.subset hr)
  differ := List.IsChain.infix maximal.differ h

/-- A part of the runs of a text is the sequence of runs of the part that it covers. -/
theorem Text.coherent_runPieces {text : Text} (short : text.length < idSpace) :
    Coherent text.runPieces := by
  have covered : ∀ part, part <:+: text.runs →
      Text.runs ((part.map Piece.ofRun).flatMap Piece.text) = part := by
    intro part inside
    rw [flatMap_text_ofRun fun r hr =>
      Nat.lt_of_le_of_lt (length_run_le (inside.subset hr)) short]
    exact runs_flatMap_text ((maximal_runs text).within inside)
  intro part other hpart hother same
  obtain ⟨runs, inside, rfl⟩ := List.infix_map_iff.mp hpart
  obtain ⟨runs', inside', rfl⟩ := List.infix_map_iff.mp hother
  rw [← covered runs inside, ← covered runs' inside', same]

namespace Partition

variable {p : Partition} {pieces part : List Piece}

/-- Only eligible pairs are folded, and a symbol is kept only if it does not begin one. -/
structure Reads (p : Partition) (pieces : List Piece) : Prop where
  eligible : ∀ r, .folded r ∈ pieces → ∃ a b, r = .pair a b ∧ p.eligible a b = true
  kept : pieces.IsChain fun x y => ∀ a, x = .kept a → p.eligible a y.first = false

theorem Reads.within (reads : p.Reads pieces) (h : part <:+: pieces) : p.Reads part where
  eligible r hr := reads.eligible r (h.subset hr)
  kept := List.IsChain.infix reads.kept h

theorem first_head?_pairPieces (p : Partition) (text : Text) :
    (p.pairPieces text).head?.map Piece.first = text.head? := by
  induction text using p.pairs_induction with
  | nil => rfl
  | single a => rfl
  | pair a b rest h _ =>
      rw [pairPieces_of_eligible h]
      rfl
  | skip a b rest h _ =>
      rw [pairPieces_of_not_eligible h]
      rfl

theorem reads_pairPieces (p : Partition) (text : Text) : p.Reads (p.pairPieces text) := by
  refine ⟨fun r h => eligible_of_folded_mem h, ?_⟩
  induction text using p.pairs_induction with
  | nil => exact List.IsChain.nil
  | single a => exact List.IsChain.singleton _
  | pair a b rest h ih =>
      rw [pairPieces_of_eligible h, List.isChain_cons]
      refine ⟨fun y _ c same => ?_, ih⟩
      cases same
  | skip a b rest h ih =>
      rw [pairPieces_of_not_eligible h, List.isChain_cons]
      refine ⟨fun y hy c same => ?_, ih⟩
      have first := p.first_head?_pairPieces (b :: rest)
      rw [Option.mem_def.mp hy, Option.map_some, List.head?_cons, Option.some_inj] at first
      cases same
      rw [first, h]

theorem Reads.text_eq_cons (reads : p.Reads pieces) {piece : Piece} (h : piece ∈ pieces) :
    ∃ rest, piece.text = piece.first :: rest := by
  cases piece with
  | kept c => exact ⟨[], rfl⟩
  | folded r =>
      obtain ⟨a, b, rfl, _⟩ := reads.eligible r h
      exact ⟨[b], rfl⟩

/-- A text is read by a partition in one way only. -/
theorem Reads.pairPieces_eq (reads : p.Reads pieces) :
    p.pairPieces (pieces.flatMap Piece.text) = pieces := by
  induction pieces with
  | nil => rfl
  | cons piece pieces ih =>
      have later := ih (reads.within (List.suffix_cons piece pieces).isInfix)
      cases piece with
      | folded r =>
          obtain ⟨a, b, rfl, h⟩ := reads.eligible r (by simp)
          rw [List.flatMap_cons, Piece.text, List.cons_append, List.singleton_append,
            pairPieces_of_eligible h, later]
      | kept a =>
          cases pieces with
          | nil => rfl
          | cons next pieces =>
              have member : next ∈ .kept a :: next :: pieces := by simp
              obtain ⟨rest, spelled⟩ := reads.text_eq_cons member
              have ends := (List.isChain_cons_cons.mp reads.kept).1 a rfl
              rw [List.flatMap_cons, spelled, List.cons_append] at later
              rw [List.flatMap_cons, List.flatMap_cons, spelled, Piece.text, List.singleton_append,
                List.cons_append, pairPieces_of_not_eligible ends, later]

theorem coherent_pairPieces (p : Partition) (text : Text) : Coherent (p.pairPieces text) := by
  intro part other hpart hother same
  have reads := p.reads_pairPieces text
  rw [← (reads.within hpart).pairPieces_eq, ← (reads.within hother).pairPieces_eq, same]

end Partition

/-- Only a kept symbol covers a single symbol. -/
theorem Spells.eq_kept {pieces : List Piece} {c : Symbol} (s : Spells pieces [c]) :
    pieces = [.kept c] := by
  have few := s.length_add_foldedCount_le
  have covered := s.flatMap_text
  match pieces with
  | [] => cases covered
  | [.kept d] =>
      rw [List.flatMap_singleton, Piece.text] at covered
      cases covered
      rfl
  | [.folded r] => simp at few
  | x :: y :: rest =>
      simp only [List.length_cons, List.length_nil] at few
      omega

/-! ### Symbols and the texts they stand for -/

/-- The symbol of a piece is a part of the new text. -/
theorem Naming.singleton_symbolOf {g : Grammar} {rules : List Rule} {pieces : List Piece}
    {piece : Piece} (h : piece ∈ pieces) :
    [Naming.symbolOf g rules piece] <:+: pieces.map (Naming.symbolOf g rules) :=
  List.singleton_infix_iff _ _ |>.mpr (List.mem_map_of_mem h)

/-- The text that a symbol or a part of the text stands for determines it. -/
structure Unambiguous (g : Grammar) (text : Text) : Prop where
  parts : ∀ part other, part <:+: text → other <:+: text →
    part.flatMap g.expand = other.flatMap g.expand → part = other
  /-- A part of the text that stands for what some symbol stands for is that symbol. -/
  symbols : ∀ v, g.Known v → ∀ part, part <:+: text → g.expand v = part.flatMap g.expand →
    part = [v]
  injective : ∀ u v, g.Known u → g.Known v → g.expand u = g.expand v → u = v

namespace Unambiguous

variable {terminals : Nat} {source text : Text} {g : Grammar} {pieces : List Piece}
variable {rules : List Rule}

theorem start (terminals : Nat) (source : Text) : Unambiguous { terminals } source := by
  have self : ∀ v, Grammar.expand { terminals } v = [v] := fun v =>
    Grammar.expand_of_rule?_none (by simp [Grammar.rule?, Grammar.entry?])
  have same : ∀ text : Text, text.flatMap (Grammar.expand { terminals }) = text := by
    intro text
    rw [List.flatMap_congr fun c _ => self c, List.flatMap_singleton']
  refine ⟨fun part other _ _ h => ?_, fun v _ part _ h => ?_, fun u v _ _ h => ?_⟩
  · rwa [same, same] at h
  · rw [self, same] at h
    exact h.symm
  · rw [self, self] at h
    exact List.singleton_inj.mp h

/-- A phase with a coherent reading keeps parts apart: if they stand for the same text now, they
cover the same text of before, and that was read in one way. -/
theorem parts_fold (h : Unambiguous g text) (f : Folding terminals source g text pieces rules)
    (coherent : Coherent pieces) {part other : Text}
    (hpart : part <:+: pieces.map (Naming.symbolOf g rules))
    (hother : other <:+: pieces.map (Naming.symbolOf g rules))
    (same : part.flatMap (g.pushAll rules).expand = other.flatMap (g.pushAll rules).expand) :
    part = other := by
  obtain ⟨piecesOfPart, inside, rfl⟩ := List.infix_map_iff.mp hpart
  obtain ⟨piecesOfOther, inside', rfl⟩ := List.infix_map_iff.mp hother
  rw [f.expand_map inside.subset, f.expand_map inside'.subset] at same
  have covered := h.parts _ _ (f.infix_text inside) (f.infix_text inside') same
  rw [coherent _ _ inside inside' covered]

theorem symbols_fold (h : Unambiguous g text) (f : Folding terminals source g text pieces rules)
    (coherent : Coherent pieces) {v : Symbol} (known : (g.pushAll rules).Known v) {part : Text}
    (hpart : part <:+: pieces.map (Naming.symbolOf g rules))
    (same : (g.pushAll rules).expand v = part.flatMap (g.pushAll rules).expand) : part = [v] := by
  obtain old | ⟨r, folded, rfl⟩ := f.known_cases known
  · -- The part covers the old symbol alone, so it consists of one kept symbol.
    obtain ⟨piecesOfPart, inside, rfl⟩ := List.infix_map_iff.mp hpart
    rw [Grammar.expand_pushAll_of_known old, f.expand_map inside.subset] at same
    have covered := h.symbols v old _ (f.infix_text inside) same
    have spells : Spells piecesOfPart [v] :=
      ⟨covered, fun r hr => f.spells.folds r (inside.subset hr)⟩
    rw [spells.eq_kept]
    rfl
  · apply h.parts_fold f coherent hpart (Naming.singleton_symbolOf folded)
    rw [List.flatMap_singleton, same]

theorem injective_fold (h : Unambiguous g text) (f : Folding terminals source g text pieces rules)
    (coherent : Coherent pieces) {u v : Symbol} (hu : (g.pushAll rules).Known u)
    (hv : (g.pushAll rules).Known v)
    (same : (g.pushAll rules).expand u = (g.pushAll rules).expand v) : u = v := by
  -- A new symbol stands in the new text, where any symbol with its expansion is found again.
  have new : ∀ r, .folded r ∈ pieces → ∀ w, (g.pushAll rules).Known w →
      (g.pushAll rules).expand w = (g.pushAll rules).expand (Naming.symbolOf g rules (.folded r)) →
        w = Naming.symbolOf g rules (.folded r) := by
    intro r folded w known same
    have found := h.symbols_fold f coherent known (Naming.singleton_symbolOf folded)
      (by rw [List.flatMap_singleton, same])
    exact (List.singleton_inj.mp found).symm
  obtain oldU | ⟨r, folded, rfl⟩ := f.known_cases hu
  · obtain oldV | ⟨r, folded, rfl⟩ := f.known_cases hv
    · rw [Grammar.expand_pushAll_of_known oldU, Grammar.expand_pushAll_of_known oldV] at same
      exact h.injective u v oldU oldV same
    · exact new r folded u hu same
  · exact (new r folded v hv same.symm).symm

/-- A phase with a coherent reading creates no symbol for a text that has one. -/
theorem fold (h : Unambiguous g text) (f : Folding terminals source g text pieces rules)
    (coherent : Coherent pieces) :
    Unambiguous (g.pushAll rules) (pieces.map (Naming.symbolOf g rules)) where
  parts _ _ hpart hother same := h.parts_fold f coherent hpart hother same
  symbols _ known _ hpart same := h.symbols_fold f coherent known hpart same
  injective _ _ hu hv same := h.injective_fold f coherent hu hv same

end Unambiguous

/-- No symbol of the last grammar stands for the text of another one. -/
theorem Naming.Completes.unambiguous {n : Naming} {terminals levels : Nat} {source : Text}
    {u : Workspace Unit} (run : n.Completes terminals source levels u)
    (short : source.length < idSpace) : Unambiguous u.grammar u.text := by
  refine Naming.along short run.small run.below (P := fun _ => Unambiguous)
    (Unambiguous.start terminals source) ?_ ?_ ?_ run.reached
  · intro _ g text rules f h
    exact h.fold f (Text.coherent_runPieces (Nat.lt_of_le_of_lt f.stage.short short))
  · intro _ g text rules _ f h
    exact h.fold f (Partition.coherent_pairPieces _ text)
  · intro _ g text _ h
    exact h

/-! ### The rules of a compressed text -/

namespace Grammar

variable {g : Grammar}

/-- Every rule stands for two or more symbols. -/
theorem Ordered.two_le_length_expand (o : g.Ordered) {v : Symbol} {r : Rule}
    (found : g.rule? v = some r) : 2 ≤ (g.expand v).length := by
  have sound := o.soundAt found
  have positive : ∀ a, 1 ≤ (g.expand a).length := fun a =>
    List.length_pos_iff.mpr (o.expand_ne_nil a)
  rw [expand_of_rule? o found]
  cases r with
  | pair a b =>
      have first := positive a
      have second := positive b
      rw [expandRule, List.length_append]
      omega
  | block a n =>
      have copies := Nat.mul_le_mul sound.2 (positive a)
      rw [expandRule, List.length_flatten, List.map_replicate, List.sum_replicate_nat]
      omega

/-- Different rules stand for different texts of two or more symbols. -/
structure RulesDiffer (g : Grammar) : Prop where
  expansions : ∀ j k, j < g.size → k < g.size →
    g.expand (g.ruleId j) = g.expand (g.ruleId k) → j = k
  not_single : ∀ k, k < g.size → ∀ a, g.expand (g.ruleId k) ≠ [a]
  nodup : g.bareRules.Nodup

/-- If different rules stand for different texts, no rule occurs twice. -/
theorem Arena.rulesDiffer (arena : g.Arena)
    (expansions : ∀ j k, j < g.size → k < g.size →
      g.expand (g.ruleId j) = g.expand (g.ruleId k) → j = k) : g.RulesDiffer := by
  refine ⟨expansions, ?_, ?_⟩
  · intro k hk a single
    have found : g.bareRules[k]? = some _ :=
      List.getElem?_eq_getElem (by rwa [length_bareRules])
    have long := arena.ordered.two_le_length_expand (arena.rule?_ruleId found)
    rw [single, List.length_singleton] at long
    omega
  · rw [List.nodup_iff_getElem?_ne_getElem?]
    intro j k before inside same
    have found : g.bareRules[k]? = some _ := List.getElem?_eq_getElem inside
    rw [length_bareRules] at inside
    have := expansions j k (Nat.lt_trans before inside) inside (by
      rw [expand_of_rule? arena.ordered (arena.rule?_ruleId (same.trans found)),
        expand_of_rule? arena.ordered (arena.rule?_ruleId found)])
    omega

end Grammar

namespace Compressor

/-- Whenever a compressor answers with a grammar, different rules stand for different texts, no rule
stands for a single symbol, and in particular no rule occurs twice. -/
theorem compress_rules_differ (c : Compressor) (terminals : Nat) (text : Text)
    (short : text.length < idSpace) (g : Grammar)
    (done : (c.compress terminals text).1.result = .ok g) : g.RulesDiffer := by
  obtain ⟨levels, u, run, rfl, _⟩ := c.completes_of_ok short done
  have arena := run.arena short
  apply arena.rulesDiffer
  intro j k hj hk same
  rw [u.expand_rooted, u.expand_rooted] at same
  exact arena.ruleId_inj hj hk ((run.unambiguous short).injective _ _ (arena.known_ruleId hj)
    (arena.known_ruleId hk) same)

/-- The same pair next to itself, and once more behind another letter. -/
theorem compress_rules_differ_repeated : ([0, 1, 0, 1, 2, 0, 1] : Text).length < idSpace ∧
    ∃ g, ((dense #[]).compress 3 [0, 1, 0, 1, 2, 0, 1]).1.result = .ok g ∧ g.RulesDiffer := by
  have short : ([0, 1, 0, 1, 2, 0, 1] : Text).length < idSpace := by decide
  obtain ⟨g, done⟩ : ∃ g, ((dense #[]).compress 3 [0, 1, 0, 1, 2, 0, 1]).1.result = .ok g :=
    exists_result_of_room _ short (by simp) (by simp [idSpace])
  exact ⟨short, g, done, compress_rules_differ (dense #[]) 3 [0, 1, 0, 1, 2, 0, 1] short g done⟩

end Compressor

end RunGrammar
