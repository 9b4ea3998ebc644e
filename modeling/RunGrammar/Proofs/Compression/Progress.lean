import Mathlib
import RunGrammar.Proofs.Compression.Stage

/-!
# Rounds end

A round is described by what its phases answer, for any method. For the method
of a naming the phases lead from stage to stage, and a round always shortens a
text of two or more symbols: by runs no symbol stands beside itself any more,
and then an eligible pair exists. So the rounds end with at most one symbol,
unless the ids run out, and a round without progress is never reported.
-/

namespace RunGrammar

variable {σ : Type}

namespace Phase

variable {α β : Type} {x : Phase σ α} {f : α → Phase σ β} {w w₁ w₂ : Workspace σ} {a : α} {b : β}

theorem exists_of_bind_ok (h : (x >>= f) w = .ok b w₂) :
    ∃ a w₁, x w = .ok a w₁ ∧ f a w₁ = .ok b w₂ := by
  cases first : x w with
  | ok a w₁ => exact ⟨a, w₁, rfl, (Failing.bind_of_ok first).symm.trans h⟩
  | error e w₁ => cases (Failing.bind_of_error first).symm.trans h

end Phase

/-- The workspace with one more event. -/
def Workspace.report (w : Workspace σ) (e : Event) : Workspace σ :=
  { w with events := w.events ++ [e] }

namespace Method

variable {m : Method σ} {level : Nat} {w w₁ w₂ : Workspace σ} {e : Failure}

theorem round_of_runs_error (h : m.replaceRuns w = .error e w₁) :
    m.round level w = .error e w₁ := by
  simp only [round, Phase.textLength, bind, EStateM.bind, get, getThe, MonadStateOf.get,
    EStateM.get, pure, EStateM.pure, h]

/-- The workspace between the two phases of a round. -/
def afterRuns (level runs before : Nat) (w : Workspace σ) : Workspace σ :=
  w.report (.runsReplaced level runs before w.text.length)

theorem round_of_short {runs : Nat} (h : m.replaceRuns w = .ok runs w₁)
    (short : w₁.text.length ≤ 1) :
    m.round level w = .ok () (afterRuns level runs w.text.length w₁) := by
  simp only [round, Phase.textLength, bind, EStateM.bind, get, getThe, MonadStateOf.get,
    EStateM.get, pure, EStateM.pure, h, Phase.report, modify, modifyGet, MonadStateOf.modifyGet,
    EStateM.modifyGet, if_neg (Nat.not_lt.mpr short)]
  rfl

theorem round_of_pairs_error {runs : Nat} (h : m.replaceRuns w = .ok runs w₁)
    (long : 1 < w₁.text.length)
    (h' : m.replacePairs (afterRuns level runs w.text.length w₁) = .error e w₂) :
    m.round level w = .error e w₂ := by
  unfold afterRuns Workspace.report at h'
  simp only [round, Phase.textLength, bind, EStateM.bind, get, getThe, MonadStateOf.get,
    EStateM.get, pure, EStateM.pure, h, Phase.report, modify, modifyGet, MonadStateOf.modifyGet,
    EStateM.modifyGet, if_pos long, h']

theorem round_of_pairs_ok {runs pairs : Nat} (h : m.replaceRuns w = .ok runs w₁)
    (long : 1 < w₁.text.length)
    (h' : m.replacePairs (afterRuns level runs w.text.length w₁) = .ok pairs w₂) :
    m.round level w =
      .ok () (w₂.report (.pairsReplaced level pairs w₁.text.length w₂.text.length)) := by
  unfold afterRuns Workspace.report at h'
  simp only [round, Phase.textLength, bind, EStateM.bind, get, getThe, MonadStateOf.get,
    EStateM.get, pure, EStateM.pure, h, Phase.report, modify, modifyGet, MonadStateOf.modifyGet,
    EStateM.modifyGet, if_pos long, h']
  rfl

theorem rounds_of_short (short : w.text.length ≤ 1) : m.rounds level w = .ok level w := by
  rw [rounds, if_pos short]

theorem rounds_of_error (long : 1 < w.text.length) (h : m.round level w = .error e w₁) :
    m.rounds level w = .error e w₁ := by
  rw [rounds, if_neg (Nat.not_le.mpr long), h]

theorem rounds_of_shorter (long : 1 < w.text.length) (h : m.round level w = .ok () w₁)
    (shorter : w₁.text.length < w.text.length) :
    m.rounds level w = m.rounds (level + 1) w₁ := by
  rw [rounds, if_neg (Nat.not_le.mpr long), h]
  exact if_pos shorter

end Method

/-- The ids run out. This happens only if there are fewer than terminals and symbols of the
source. -/
def Exhausted (terminals : Nat) (source : Text) (e : Failure) : Prop :=
  ∃ wanted, e = .idSpaceExhausted terminals wanted ∧ idSpace < terminals + wanted ∧
    wanted < source.length

namespace Naming

variable {n : Naming} {terminals : Nat} {source : Text} {w : Workspace Unit}
variable {pieces : List Piece}

/-- A phase leads to the next stage, or the ids run out. -/
theorem fold_outcome (n : Naming) (s : Stage terminals source w.grammar w.text)
    (spells : Spells pieces w.text) :
    (∃ w', n.fold pieces w = .ok (Piece.foldedCount pieces) w' ∧
      Stage terminals source w'.grammar w'.text ∧ w'.text.length = pieces.length ∧
      (pieces.IsChain (fun x y => x.first ≠ y.first) → w'.text.Distinct)) ∨
    ∃ e, n.fold pieces w = .error e w ∧ Exhausted terminals source e := by
  have covers := n.covers pieces
  have few := covers.length_le
  have paid := spells.length_add_foldedCount_le
  have room := s.room
  by_cases fits : w.grammar.terminals + w.grammar.size +
      (n.order (pieces.filterMap Piece.rule?)).length ≤ idSpace
  · left
    refine ⟨_, fold_of_reserve_ok (n.reserve_fits _ _ fits), s.fold spells covers fits,
      List.length_map _, fun differ => s.distinct_fold spells covers fits differ⟩
  · right
    obtain ⟨wanted, failed, full, bounded⟩ := n.reserve_exhausted w.grammar _
      (Nat.le_trans (Nat.le_add_right _ _) s.arena.fits) (Nat.not_le.mp fits)
    refine ⟨_, fold_of_reserve_error failed, wanted, by rw [s.terminals_eq], ?_, ?_⟩
    · rwa [← s.terminals_eq]
    · -- Some piece is folded, so at least one symbol is left beside the rules.
      have nonempty : pieces ≠ [] := by
        rintro rfl
        have := s.arena.fits
        rw [Piece.foldedCount_nil] at few
        omega
      have := List.length_pos_iff.mpr nonempty
      omega

/-- A round shortens the text, or the ids run out. -/
theorem round_outcome (n : Naming) (level : Nat) (s : Stage terminals source w.grammar w.text)
    (small : source.length < idSpace) (long : 1 < w.text.length) :
    (∃ w', n.method.round level w = .ok () w' ∧ Stage terminals source w'.grammar w'.text ∧
      w'.text.length < w.text.length) ∨
    ∃ e w', n.method.round level w = .error e w' ∧ Exhausted terminals source e := by
  have spells := Text.spells_runPieces (Nat.lt_of_le_of_lt s.short small)
  have paid := spells.length_add_foldedCount_le
  obtain ⟨w₁, runs, s₁, length, distinct⟩ | ⟨e, runs, exhausted⟩ := n.fold_outcome s spells
  · have distinct := distinct (Text.isChain_first_runPieces w.text)
    by_cases short : w₁.text.length ≤ 1
    · exact .inl ⟨_, Method.round_of_short runs short, s₁, by
        show w₁.text.length < _
        omega⟩
    · have long₁ := Nat.not_le.mp short
      let between := Method.afterRuns level (Piece.foldedCount w.text.runPieces) w.text.length w₁
      have spells := (Partition.ofText between.text).spells_pairPieces between.text
      have paid := spells.length_add_foldedCount_le
      have progress := Partition.eligibleCount_pos distinct long₁
      rw [← Partition.foldedCount_pairPieces] at progress
      have s₂ : Stage terminals source between.grammar between.text := s₁
      obtain ⟨w₂, pairs, s₂, length₂, _⟩ | ⟨e, pairs, exhausted⟩ := n.fold_outcome s₂ spells
      · refine .inl ⟨_, Method.round_of_pairs_ok runs long₁ pairs, s₂, ?_⟩
        have shorter : w₂.text.length < w₁.text.length := by
          rw [length₂]
          exact Nat.lt_of_lt_of_le (Nat.lt_add_of_pos_right progress) paid
        show w₂.text.length < _
        omega
      · exact .inr ⟨e, _, Method.round_of_pairs_error runs long₁ pairs, exhausted⟩
  · exact .inr ⟨e, w, Method.round_of_runs_error runs, exhausted⟩

/-- Rounds end with at most one symbol, or the ids run out. -/
theorem rounds_outcome (n : Naming) (level : Nat) (s : Stage terminals source w.grammar w.text)
    (small : source.length < idSpace) :
    (∃ levels w', n.method.rounds level w = .ok levels w' ∧
      Stage terminals source w'.grammar w'.text ∧ w'.text.length ≤ 1) ∨
    ∃ e w', n.method.rounds level w = .error e w' ∧ Exhausted terminals source e := by
  induction hn : w.text.length using Nat.strongRecOn generalizing w level with
  | ind k ih =>
      by_cases short : w.text.length ≤ 1
      · exact .inl ⟨level, w, Method.rounds_of_short short, s, short⟩
      · have long := Nat.not_le.mp short
        obtain ⟨w₁, done, s₁, shorter⟩ | ⟨e, w₁, failed, exhausted⟩ :=
          n.round_outcome level s small long
        · rw [Method.rounds_of_shorter long done shorter]
          exact ih w₁.text.length (hn ▸ shorter) (level + 1) s₁ rfl
        · exact .inr ⟨e, w₁, Method.rounds_of_error long failed, exhausted⟩

end Naming

end RunGrammar
