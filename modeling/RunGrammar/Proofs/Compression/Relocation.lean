import Mathlib
import RunGrammar.Proofs.Compression.Course
import RunGrammar.Proofs.Compression.Renaming
import RunGrammar.Proofs.Grammar.Relocation

/-!
# Compression over other terminals

A text whose terminals are moved in ascending order is compressed like the text
itself: at each point both runs cut their texts into the same pieces, and new
rules get the same places behind the terminals. This goes on as long as the
moved run has ids for its rules. When it has too few for all rules of a phase it
fails in this phase, although the run that it follows may go on.

So the moved run comes to the moved grammar if there are ids for all rules of
the grammar, and otherwise it reports that the ids ran out. The number of rules
that it reports is too large for the ids, but not larger than the number of
rules in the grammar; where rules are named as they appear, it is the smallest
such number.
-/

namespace RunGrammar

variable {A B : Nat} {α β : Type}

/-- The workspace with its terminals moved. -/
def Workspace.relocate (f : Relocation A B) (u : Workspace Unit) : Workspace Unit :=
  { u with text := u.text.map f.symbol, grammar := u.grammar.relocate f }

@[simp] theorem Workspace.text_relocate (f : Relocation A B) (u : Workspace Unit) :
    (u.relocate f).text = u.text.map f.symbol := rfl

@[simp] theorem Workspace.grammar_relocate (f : Relocation A B) (u : Workspace Unit) :
    (u.relocate f).grammar = u.grammar.relocate f := rfl

namespace Naming

/-- The ids do not suffice for so many rules, and a number of them that is too large was
reported. -/
def Overflows (n : Naming) (terminals rules : Nat) (e : Failure) : Prop :=
  ∃ wanted, e = .idSpaceExhausted terminals wanted ∧ idSpace < terminals + wanted ∧
    wanted ≤ rules ∧ (n = firstSeen → wanted = idSpace - terminals + 1)

variable {n : Naming}

theorem Overflows.mono {terminals rules rules' : Nat} {e : Failure}
    (h : n.Overflows terminals rules e) (more : rules ≤ rules') :
    n.Overflows terminals rules' e := by
  obtain ⟨wanted, rfl, large, few, first⟩ := h
  exact ⟨wanted, rfl, large, Nat.le_trans few more, first⟩

theorem reserve_overflows (n : Naming) (g : Grammar) (count : Nat) (small : g.terminals ≤ idSpace)
    (full : idSpace < g.terminals + g.size + count) :
    ∃ e, n.reserve g count = .error e ∧ n.Overflows g.terminals (g.size + count) e := by
  obtain ⟨wanted, failed, large, few⟩ := n.reserve_exhausted g count small full
  refine ⟨_, failed, wanted, rfl, large, few, ?_⟩
  rintro rfl
  simpa [firstSeen, Nat.not_le.mpr full] using failed.symm

/-- An action that leads from `u` to `u₁` does the same with moved terminals, if there are ids for
all rules of `u₁`. If there are only enough for those of `u`, it reports that. -/
structure Reflected (n : Naming) (f : Relocation A B) (x : Phase Unit α) (u : Workspace Unit)
    (a : α) (u₁ : Workspace Unit) : Prop where
  grows : u.grammar.size ≤ u₁.grammar.size
  fits : B + u₁.grammar.size ≤ idSpace → x (u.relocate f) = .ok a (u₁.relocate f)
  full : B + u.grammar.size ≤ idSpace → idSpace < B + u₁.grammar.size →
    ∃ e w, x (u.relocate f) = .error e w ∧ n.Overflows B u₁.grammar.size e

/-- This holds wherever the action leads to. -/
def Reflects (n : Naming) (f : Relocation A B) (x : Phase Unit α) (u : Workspace Unit) : Prop :=
  ∀ a u₁, x u = .ok a u₁ → n.Reflected f x u a u₁

namespace Reflects

variable {f : Relocation A B} {x : Phase Unit α} {u : Workspace Unit}

/-- An action that creates no rules. -/
theorem of_eq {a : α} {u₁ : Workspace Unit} (done : x u = .ok a u₁)
    (moved : x (u.relocate f) = .ok a (u₁.relocate f)) (kept : u₁.grammar = u.grammar) :
    n.Reflects f x u := by
  intro a' u' done'
  cases done.symm.trans done'
  refine ⟨kept ▸ Nat.le_refl _, fun _ => moved, fun room many => ?_⟩
  rw [kept] at many
  omega

theorem bind {g : α → Phase Unit β} (first : n.Reflects f x u)
    (rest : ∀ a u₁, x u = .ok a u₁ → n.Reflects f (g a) u₁) : n.Reflects f (x >>= g) u := by
  intro b u₂ done
  obtain ⟨a, u₁, taken, ended⟩ := Phase.exists_of_bind_ok done
  have one := first a u₁ taken
  have two := rest a u₁ taken b u₂ ended
  refine ⟨Nat.le_trans one.grows two.grows, fun fits => ?_, fun room many => ?_⟩
  · have room₁ : B + u₁.grammar.size ≤ idSpace := by
      have := two.grows
      omega
    exact (Failing.bind_of_ok (one.fits room₁)).trans (two.fits fits)
  · by_cases room₁ : B + u₁.grammar.size ≤ idSpace
    · obtain ⟨e, w, failed, overflows⟩ := two.full room₁ many
      exact ⟨e, w, (Failing.bind_of_ok (one.fits room₁)).trans failed, overflows⟩
    · obtain ⟨e, w, failed, overflows⟩ := one.full room (Nat.not_le.mp room₁)
      exact ⟨e, w, Failing.bind_of_error failed, overflows.mono two.grows⟩

theorem pure (a : α) : n.Reflects f (Pure.pure a) u := of_eq rfl rfl rfl

theorem textLength : n.Reflects f Phase.textLength u := by
  have moved : Phase.textLength (u.relocate f) = .ok u.text.length (u.relocate f) := by
    have same : (u.relocate f).text.length = u.text.length := List.length_map _
    exact same ▸ rfl
  exact of_eq rfl moved rfl

theorem report (e : Event) : n.Reflects f (Phase.report e) u := of_eq rfl rfl rfl

end Reflects

section Rounds

variable {f : Relocation A B} {source : Text} {u u₁ : Workspace Unit} {pieces : List Piece}
variable {rules : List Rule}

/-- As long as the ids suffice, the text is renamed in ascending order. -/
theorem ascendingOn_symbol (s : Stage A source u.grammar u.text)
    (room : B + u.grammar.size ≤ idSpace) : AscendingOn f.symbol u.text := by
  have known : ∀ a ∈ u.text, a.toNat < A + u.grammar.size := by
    intro a ha
    have inside : a.toNat < u.grammar.terminals + u.grammar.size := s.known a ha
    rwa [s.terminals_eq] at inside
  exact fun a ha b hb => f.symbol_lt room (known a ha) (known b hb)

/-- A piece leaves the same symbol, moved. -/
theorem symbolOf_relocate {g : Grammar} (base : g.terminals = A)
    (fits : A + g.size + rules.length ≤ idSpace) (covers : Covers rules pieces)
    (inj : ∀ r, .folded r ∈ pieces → ∀ s, .folded s ∈ pieces →
      s.rename f.symbol = r.rename f.symbol → s = r) {piece : Piece} (h : piece ∈ pieces) :
    symbolOf (g.relocate f) (rules.map (Rule.rename f.symbol)) (piece.rename f.symbol) =
      f.symbol (symbolOf g rules piece) := by
  cases piece with
  | kept c => rfl
  | folded r =>
      have index := covers.idxOf_lt h
      have place : (rules.map (Rule.rename f.symbol)).idxOf (r.rename f.symbol) = rules.idxOf r :=
        idxOf_map ((covers.mem_iff r).mpr h) fun s hs => inj r h s ((covers.mem_iff s).mp hs)
      have id := Grammar.symbol_ruleId (f := f) base (k := g.size + rules.idxOf r) (by omega)
      simp only [Piece.rename, symbolOf, place, id, Grammar.size_relocate]

section Phase

variable (s : Stage A source u.grammar u.text) (spells : Spells pieces u.text)
variable (covers : Covers rules pieces)
variable (order : n.order ((pieces.map (Piece.rename f.symbol)).filterMap Piece.rule?) =
  rules.map (Rule.rename f.symbol))

include s spells covers order

/-- With ids for all rules, the phase leaves what it leaves of the other text, moved. -/
theorem fold_relocate_of_room (fits : A + u.grammar.size + rules.length ≤ idSpace)
    (room : B + u.grammar.size + rules.length ≤ idSpace) :
    n.fold (pieces.map (Piece.rename f.symbol)) (u.relocate f) =
      .ok (Piece.foldedCount pieces) (Workspace.relocate f
        { u with
          grammar := u.grammar.pushAll rules
          text := pieces.map (symbolOf u.grammar rules) }) := by
  have ascending : AscendingOn f.symbol u.text := ascendingOn_symbol s (by omega)
  have inj : ∀ r, .folded r ∈ pieces → ∀ r', .folded r' ∈ pieces →
      r'.rename f.symbol = r.rename f.symbol → r' = r := fun r hr r' hr' =>
    Rule.rename_inj ascending.inj (fun _ => spells.operand_mem hr') fun _ => spells.operand_mem hr
  have known : ∀ r ∈ rules, ∀ a ∈ r.operands, u.grammar.Known a := fun r hr a ha =>
    s.known a (spells.operand_mem ((covers.mem_iff r).mp hr) ha)
  have grammar := Grammar.pushAll_relocate (f := f) s.terminals_eq room known
  have text : (pieces.map (Piece.rename f.symbol)).map
      (symbolOf (u.grammar.relocate f) (rules.map (Rule.rename f.symbol))) =
        (pieces.map (symbolOf u.grammar rules)).map f.symbol := by
    rw [List.map_map, List.map_map]
    exact List.map_congr_left fun piece h => symbolOf_relocate s.terminals_eq fits covers inj h
  have reserved : n.reserve (u.relocate f).grammar
      (n.order ((pieces.map (Piece.rename f.symbol)).filterMap Piece.rule?)).length = .ok () := by
    apply n.reserve_fits
    rw [order, List.length_map]
    simpa using room
  rw [fold_of_reserve_ok reserved, order, Piece.foldedCount_rename, Workspace.grammar_relocate,
    grammar, text]
  rfl

omit s spells covers in
/-- Without, nothing changes, and it is reported. -/
theorem fold_relocate_of_full (room : B + u.grammar.size ≤ idSpace)
    (full : idSpace < B + u.grammar.size + rules.length) :
    ∃ e, n.fold (pieces.map (Piece.rename f.symbol)) (u.relocate f) = .error e (u.relocate f) ∧
      n.Overflows B (u.grammar.size + rules.length) e := by
  have small : (u.grammar.relocate f).terminals ≤ idSpace := by
    rw [Grammar.terminals_relocate]
    omega
  obtain ⟨e, failed, overflows⟩ := n.reserve_overflows (u.grammar.relocate f) rules.length small
    (by simpa using full)
  rw [Grammar.terminals_relocate, Grammar.size_relocate] at overflows
  refine ⟨e, fold_of_reserve_error ?_, overflows⟩
  rw [order, List.length_map]
  exact failed

end Phase

/-- A phase that cuts both texts into the same pieces. -/
theorem reflects_cut (natural : n.Natural) (s : Stage A source u.grammar u.text)
    {cut : Text → List Piece} (spells : Spells (cut u.text) u.text)
    (uniform : Rule.Uniform ((cut u.text).filterMap Piece.rule?))
    (same : AscendingOn f.symbol u.text →
      cut (u.text.map f.symbol) = (cut u.text).map (Piece.rename f.symbol)) :
    n.Reflects f (fun w => n.fold (cut w.text) w) u := by
  intro count u₁ done
  obtain ⟨reserved, rfl, rfl⟩ := eq_of_fold_ok done
  have covers := n.covers (cut u.text)
  have small : u.grammar.terminals ≤ idSpace := Nat.le_trans (Nat.le_add_right _ _) s.arena.fits
  have fits := fits_of_reserve_ok small reserved
  have order (room : B + u.grammar.size ≤ idSpace) :
      n.order (((cut u.text).map (Piece.rename f.symbol)).filterMap Piece.rule?) =
        (n.order ((cut u.text).filterMap Piece.rule?)).map (Rule.rename f.symbol) := by
    rw [Piece.filterMap_rule?_rename]
    exact natural f.symbol u.text _ uniform (ascendingOn_symbol s room) fun r hr a ha =>
      spells.operand_mem (Piece.mem_filterMap_rule?_iff.mp hr) ha
  have moved (room : B + u.grammar.size ≤ idSpace) :
      n.fold (cut (u.relocate f).text) (u.relocate f) =
        n.fold ((cut u.text).map (Piece.rename f.symbol)) (u.relocate f) :=
    congrArg (n.fold · (u.relocate f)) (same (ascendingOn_symbol s room))
  rw [s.terminals_eq] at fits
  refine ⟨by simp, fun fits' => ?_, fun room full => ?_⟩
  · rw [Grammar.size_pushAll, ← Nat.add_assoc] at fits'
    have room : B + u.grammar.size ≤ idSpace := by omega
    exact (moved room).trans (fold_relocate_of_room s spells covers (order room) fits fits')
  · rw [Grammar.size_pushAll, ← Nat.add_assoc] at full
    obtain ⟨e, failed, overflows⟩ := fold_relocate_of_full (order room) room full
    exact ⟨e, u.relocate f, (moved room).trans failed, by simpa using overflows⟩

theorem reflects_replaceRuns (natural : n.Natural) (s : Stage A source u.grammar u.text)
    (short : source.length < idSpace) : n.Reflects f n.method.replaceRuns u :=
  reflects_cut natural s (Text.spells_runPieces (Nat.lt_of_le_of_lt s.short short))
    u.text.uniform_runPieces fun ascending => Text.runPieces_map ascending.inj

theorem reflects_replacePairs (natural : n.Natural) (s : Stage A source u.grammar u.text)
    (distinct : u.text.Distinct) : n.Reflects f n.method.replacePairs u := by
  let cut (text : Text) : List Piece := (Partition.ofText text).pairPieces text
  have same (ascending : AscendingOn f.symbol u.text) :
      cut (u.text.map f.symbol) = (cut u.text).map (Piece.rename f.symbol) :=
    Partition.pairPieces_map fun a ha b hb =>
      Partition.eligible_ofText_map distinct ascending ha hb
  have phase : n.Reflects f (fun w => n.fold (cut w.text) w) u :=
    reflects_cut natural s ((Partition.ofText u.text).spells_pairPieces u.text)
      ((Partition.ofText u.text).uniform_pairPieces u.text) same
  exact phase

/-- One round. Between its phases no symbol stands beside itself. -/
theorem reflects_round (natural : n.Natural) (s : Stage A source u.grammar u.text)
    (short : source.length < idSpace) (level : Nat) :
    n.Reflects f (n.method.round level) u := by
  apply Reflects.textLength.bind
  rintro before _ ⟨⟩
  apply (reflects_replaceRuns natural s short).bind
  intro runs u₁ done
  have spells := Text.spells_runPieces (Nat.lt_of_le_of_lt s.short short)
  obtain ⟨rules, folding, _, rfl⟩ := folding_of_ok s spells done
  have s₁ := s.fold spells folding.covers folding.fits
  have distinct := s.distinct_fold spells folding.covers folding.fits
    (Text.isChain_first_runPieces u.text)
  apply Reflects.textLength.bind
  rintro between _ ⟨⟩
  apply (Reflects.report _).bind
  rintro _ _ ⟨⟩
  by_cases long : 1 < (u.text.runPieces.map (symbolOf u.grammar rules)).length
  · simp only [if_pos long]
    apply (reflects_replacePairs natural s₁ distinct).bind
    intro pairs u₂ _
    apply Reflects.textLength.bind
    rintro after _ ⟨⟩
    exact Reflects.report _
  · simp only [if_neg long]
    exact Reflects.pure _

/-- By induction on the text that is left. -/
theorem reflects_rounds (natural : n.Natural) (s : Stage A source u.grammar u.text)
    (short : source.length < idSpace) (level : Nat) :
    n.Reflects f (n.method.rounds level) u := by
  induction hn : u.text.length using Nat.strongRecOn generalizing u level with
  | ind k ih =>
      have same (u : Workspace Unit) : (u.relocate f).text.length = u.text.length :=
        List.length_map _
      by_cases last : u.text.length ≤ 1
      · exact .of_eq (Method.rounds_of_short last)
          (Method.rounds_of_short ((same u).symm ▸ last)) rfl
      · have long := Nat.not_le.mp last
        have long' : 1 < (u.relocate f).text.length := (same u).symm ▸ long
        intro levels u₂ done
        obtain ⟨u₁, step, s₁, shorter⟩ | ⟨e, u₁, failed, _⟩ := n.round_outcome level s short long
        · have shorter' : (u₁.relocate f).text.length < (u.relocate f).text.length := by
            rwa [same, same]
          rw [Method.rounds_of_shorter long step shorter] at done
          have one := reflects_round (f := f) natural s short level () u₁ step
          have rest := ih u₁.text.length (hn ▸ shorter) s₁ (level + 1) rfl levels u₂ done
          refine ⟨Nat.le_trans one.grows rest.grows, fun fits => ?_, fun room full => ?_⟩
          · have room₁ : B + u₁.grammar.size ≤ idSpace := by
              have := rest.grows
              omega
            rw [Method.rounds_of_shorter long' (one.fits room₁) shorter', rest.fits fits]
          · by_cases room₁ : B + u₁.grammar.size ≤ idSpace
            · rw [Method.rounds_of_shorter long' (one.fits room₁) shorter']
              exact rest.full room₁ full
            · obtain ⟨e, w, failed, overflows⟩ := one.full room (Nat.not_le.mp room₁)
              exact ⟨e, w, Method.rounds_of_error long' failed, overflows.mono rest.grows⟩
        · rw [Method.rounds_of_error long failed] at done
          cases done

end Rounds

/-- A text of terminals is moved as a whole. -/
theorem start_relocate (f : Relocation A B) {text : Text} (below : ∀ a ∈ text, a.toNat < A) :
    (start A text).relocate f = start B (text.map f.terminal) := by
  have letters : text.map f.symbol = text.map f.terminal :=
    List.map_congr_left fun a ha => f.symbol_of_lt (below a ha)
  have empty : Grammar.relocate f { terminals := A } = { terminals := B } := by
    simp [Grammar.relocate]
  simp only [Workspace.relocate, start, letters, empty]

end Naming

/-- The first symbol that is left is the root before and after the move. -/
theorem Workspace.rooted_relocate (f : Relocation A B) (u : Workspace Unit) :
    (u.relocate f).rooted = u.rooted.relocate f := by
  simp [rooted, relocate, Grammar.relocate]

namespace Compressor

variable {text : Text} {g : Grammar}

theorem natural_naming (c : Compressor) : c.naming.Natural := by
  cases c with
  | firstSeen names => exact Naming.natural_firstSeen
  | dense mapping => exact Naming.natural_ascending
  | chunked parts => exact Naming.natural_ascending

/-- Compressors of one strategy name rules in the same way. -/
theorem naming_eq_of_strategy_eq {c c' : Compressor} (same : c'.strategy = c.strategy) :
    c'.naming = c.naming := by
  cases c <;> cases c' <;> first | rfl | cases same

/-- The moved run answers with the moved grammar, or it reports that the ids ran out. -/
theorem result_relocate (f : Relocation A B) (small : B ≤ idSpace) (short : text.length < idSpace)
    {c c' : Compressor} (same : c'.strategy = c.strategy)
    (done : (c.compress A text).1.result = .ok g) :
    (B + g.size ≤ idSpace →
      (c'.compress B (text.map f.terminal)).1.result = .ok (g.relocate f)) ∧
    (idSpace < B + g.size → ∃ e, (c'.compress B (text.map f.terminal)).1.result = .error e ∧
      c.naming.Overflows B g.size e) := by
  obtain ⟨fits, below, levels, u, ended, rfl⟩ := c.exists_rounds_of_ok short done
  have short' : (text.map f.terminal).length < idSpace := by rwa [List.length_map]
  have below' : ∀ a ∈ text.map f.terminal, a.toNat < B := by
    intro a ha
    obtain ⟨a, member, rfl⟩ := List.mem_map.mp ha
    exact f.below a (below a member)
  have stage : Stage A text (Naming.start A text).grammar (Naming.start A text).text :=
    .start fits below
  have reflected := Naming.reflects_rounds (f := f) c.natural_naming stage short 0 levels u ended
  have naming := naming_eq_of_strategy_eq same
  have start : B + (Naming.start A text).grammar.size ≤ idSpace := by
    simpa [Naming.start, Grammar.size] using small
  refine ⟨fun room => ?_, fun full => ?_⟩
  · have moved := reflected.fits room
    rw [Naming.start_relocate f below, ← naming] at moved
    rw [c'.compress_of_rounds_ok short' small below' moved, Workspace.rooted_relocate]
  · obtain ⟨e, w, failed, overflows⟩ := reflected.full start full
    rw [Naming.start_relocate f below, ← naming] at failed
    exact ⟨e, c'.compress_of_rounds_error short' small below' failed, overflows⟩

/-- The recorded length of the text stays. -/
theorem textLength_relocate_of_ok (f : Relocation A B) (short : text.length < idSpace)
    (c : Compressor) (done : (c.compress A text).1.result = .ok g) (room : B + g.size ≤ idSpace) :
    (g.relocate f).textLength = g.textLength := by
  obtain ⟨levels, u, run, rfl, _⟩ := c.completes_of_ok short done
  have stage := run.stage short
  have known : ∀ v, u.rooted.root = some v → u.rooted.Known v := fun v hv =>
    stage.known v (List.mem_of_head? hv)
  exact Grammar.textLength_relocate stage.terminals_eq room known

/-- Compression depends on the order of the terminals only, and it fails for lack of ids just when
it must. Over other terminals in the same order, a compressor of the same strategy answers with a
grammar if and only if there are ids for all rules of the first one. It is then the first one with
its terminals moved. Otherwise the ids run out: the number of rules that is reported does not fit
behind the terminals, and it is not larger than the number of rules of the first grammar. Where
rules are named as they appear, it is the first number that does not fit. -/
theorem compress_relocate (f : Relocation A B) (small : B ≤ idSpace) (short : text.length < idSpace)
    {c c' : Compressor} (same : c'.strategy = c.strategy)
    (done : (c.compress A text).1.result = .ok g) :
    ((∃ h, (c'.compress B (text.map f.terminal)).1.result = .ok h) ↔ B + g.size ≤ idSpace) ∧
    (∀ h, (c'.compress B (text.map f.terminal)).1.result = .ok h →
      h = g.relocate f ∧ h.size = g.size ∧ h.blocks = g.blocks ∧ h.isEmpty = g.isEmpty ∧
        h.textLength = g.textLength) ∧
    ∀ e, (c'.compress B (text.map f.terminal)).1.result = .error e →
      ∃ rules, e = .idSpaceExhausted B rules ∧ idSpace - B < rules ∧ rules ≤ g.size ∧
        (c.strategy = .firstSeen → rules = idSpace - B + 1) := by
  obtain ⟨fits, full⟩ := result_relocate f small short same done
  obtain many | room := Nat.lt_or_ge idSpace (B + g.size)
  · obtain ⟨e, failed, rules, rfl, large, few, first⟩ := full many
    have first : c.strategy = .firstSeen → rules = idSpace - B + 1 := fun h =>
      first (naming_eq_of_strategy_eq (c := .firstSeen ∅) h)
    rw [failed]
    refine ⟨⟨fun ⟨h, answer⟩ => ?_, fun room => ?_⟩, fun h answer => ?_, fun e answer => ?_⟩
    · cases answer
    · omega
    · cases answer
    · cases answer
      exact ⟨rules, rfl, by omega, few, first⟩
  · rw [fits room]
    refine ⟨⟨fun _ => room, fun _ => ⟨_, rfl⟩⟩, fun h answer => ?_, fun e answer => ?_⟩
    · cases answer
      exact ⟨rfl, g.size_relocate f, g.blocks_relocate f, g.isEmpty_relocate f,
        textLength_relocate_of_ok f short c done room⟩
    · cases answer

/-- Eight terminals, each of them a hundred further up. -/
def shifted : Relocation 8 108 where
  terminal a := a + 100
  ascending a b ha hb lt := by
    rw [UInt32.lt_iff_toNat_lt] at lt ⊢
    simp only [UInt32.toNat_add, UInt32.reduceToNat]
    omega
  below a h := by
    simp only [UInt32.toNat_add, UInt32.reduceToNat]
    omega

theorem compress_relocate_shifted :
    108 ≤ idSpace ∧ ([7, 7, 7, 2] : Text).length < idSpace ∧
      (chunked 3).strategy = (chunked 1).strategy ∧
      ∃ g, ((chunked 1).compress 8 [7, 7, 7, 2]).1.result = .ok g ∧
        ((chunked 3).compress 108 [107, 107, 107, 102]).1.result = .ok (g.relocate shifted) ∧
        108 + g.size ≤ idSpace := by
  have small : 108 ≤ idSpace := by decide
  have short : ([7, 7, 7, 2] : Text).length < idSpace := by decide
  have same : (chunked 3).strategy = (chunked 1).strategy := rfl
  obtain ⟨g, done⟩ : ∃ g, ((chunked 1).compress 8 [7, 7, 7, 2]).1.result = .ok g :=
    exists_result_of_room _ short (by simp) (by simp [idSpace])
  have short' : ([107, 107, 107, 102] : Text).length < idSpace := by decide
  obtain ⟨h, moved⟩ : ∃ h, ((chunked 3).compress 108 [107, 107, 107, 102]).1.result = .ok h :=
    exists_result_of_room _ short' (by simp) (by simp [idSpace])
  obtain ⟨answers, same, _⟩ := compress_relocate shifted small short same done
  obtain ⟨rfl, _⟩ := same h moved
  exact ⟨small, short, rfl, g, done, moved, answers.mp ⟨_, moved⟩⟩

end Compressor

end RunGrammar
