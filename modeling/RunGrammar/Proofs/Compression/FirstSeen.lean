import Mathlib
import RunGrammar.Compression.FirstSeen
import RunGrammar.Proofs.Alphabet.Bound
import RunGrammar.Proofs.Compression.Simulation

/-!
# Names in order of appearance

While the pieces are read from left to right, the table of the phase holds the
rules met so far, and these are the rules that the grammar has got in this
phase. What the other table holds is never looked up, since a phase meets rules
of one kind only. A rule that is met again is found under the symbol that it was
given first. So in the end the text is the one for the naming
`Naming.firstSeen`, and the first rule without an id is the one that is
reported.
-/

namespace RunGrammar

namespace Naming

theorem prefix_meet (met : List Rule) (r : Rule) : met <+: meet met r := by
  unfold meet
  split
  · exact List.prefix_rfl
  · exact List.prefix_append met [r]

theorem prefix_foldl_meet (met rs : List Rule) : met <+: rs.foldl meet met := by
  induction rs generalizing met with
  | nil => exact List.prefix_rfl
  | cons r rs ih => exact (prefix_meet met r).trans (ih (meet met r))

theorem mem_meet_self (met : List Rule) (r : Rule) : r ∈ meet met r := mem_meet.mpr (.inr rfl)

end Naming

namespace FirstSeen

open Naming (meet)

namespace Names

theorem find?_insert (names : Names) (r s : Rule) (v : Symbol) :
    (names.insert r v).find? s = if r = s then some v else names.find? s := by
  by_cases same : r = s
  · subst same
    cases kind : r.isBlock <;> simp [find?, insert, kind]
  · cases kind : r.isBlock <;> cases kind' : s.isBlock <;>
      simp [find?, insert, kind, kind', same, Std.HashMap.getElem?_insert]

/-- In an empty table no rule of its kind is found. -/
theorem find?_clear (names : Names) (r : Rule) : (names.clear r.isBlock).find? r = none := by
  cases kind : r.isBlock <;> simp [find?, clear, kind]

/-- The grammar has got the rules met in this phase, and their table knows their symbols. -/
structure Hold (kind : Bool) (g : Grammar) (met : List Rule) (w : Workspace Names) : Prop where
  grammar : w.grammar = g.pushAll met
  table : ∀ r, r.isBlock = kind → w.tables.find? r =
    if r ∈ met then some (g.ruleId (g.size + met.idxOf r)) else none

end Names

/-- Only grammar and tables have changed. -/
structure Keeps (w w' : Workspace Names) : Prop where
  text : w'.text = w.text
  events : w'.events = w.events

variable {g : Grammar} {met : List Rule} {w : Workspace Names} {r : Rule} {kind : Bool}

theorem nameOf_of_some {v : Symbol} (found : w.tables.find? r = some v) :
    nameOf r w = .ok v w := by
  simp only [nameOf, bind, EStateM.bind, get, getThe, MonadStateOf.get, EStateM.get, found, pure,
    EStateM.pure]

/-- A rule that is met for the first time is created, if there is an id for it. -/
theorem nameOf_of_none (missing : w.tables.find? r = none) :
    nameOf r w = match w.grammar.reserve 1 with
      | .error e => .error e w
      | .ok () => .ok w.grammar.nextId
          { w with
            grammar := w.grammar.push r
            tables := w.tables.insert r w.grammar.nextId } := by
  cases reserved : w.grammar.reserve 1 <;>
    simp only [nameOf, bind, EStateM.bind, get, getThe, MonadStateOf.get, EStateM.get, missing,
      Phase.reserve, Phase.check, reserved, Phase.create, modify, modifyGet,
      MonadStateOf.modifyGet, EStateM.modifyGet, pure, EStateM.pure]

theorem nameOf_of_mem (hold : Names.Hold kind g met w) (hr : r.isBlock = kind) (old : r ∈ met) :
    nameOf r w = .ok (g.ruleId (g.size + met.idxOf r)) w :=
  nameOf_of_some ((hold.table r hr).trans (if_pos old))

theorem nameOf_of_notMem (hold : Names.Hold kind g met w) (hr : r.isBlock = kind) (new : r ∉ met)
    (fits : g.terminals + g.size + (met.length + 1) ≤ idSpace) :
    nameOf r w = .ok (g.ruleId (g.size + met.length))
      { w with
        grammar := g.pushAll (met ++ [r])
        tables := w.tables.insert r (g.ruleId (g.size + met.length)) } := by
  have missing := (hold.table r hr).trans (if_neg new)
  have reserved : w.grammar.reserve 1 = .ok () := by
    apply Naming.reserve_grammar_fits
    rw [hold.grammar, Grammar.terminals_pushAll, Grammar.size_pushAll]
    omega
  have id : w.grammar.nextId = g.ruleId (g.size + met.length) := by
    rw [hold.grammar, Grammar.nextId, Grammar.terminals_pushAll, Grammar.size_pushAll,
      Grammar.ruleId]
  have grown : w.grammar.push r = g.pushAll (met ++ [r]) := by
    rw [hold.grammar, Grammar.pushAll, Grammar.pushAll, List.foldl_append]
    rfl
  simp only [nameOf_of_none missing, reserved, id, grown]

theorem nameOf_of_full (hold : Names.Hold kind g met w) (hr : r.isBlock = kind) (new : r ∉ met)
    (fits : g.terminals + g.size + met.length ≤ idSpace)
    (full : ¬ g.terminals + g.size + (met.length + 1) ≤ idSpace) :
    nameOf r w = .error (.idSpaceExhausted g.terminals (idSpace - g.terminals + 1)) w := by
  have missing := (hold.table r hr).trans (if_neg new)
  have exhausted : w.grammar.reserve 1 =
      .error (.idSpaceExhausted g.terminals (idSpace - g.terminals + 1)) := by
    rw [Naming.reserve_grammar_exhausted, hold.grammar, Grammar.terminals_pushAll,
      Grammar.size_pushAll]
    · have : idSpace < lengthCap := by decide
      congr 2
      omega
    · rw [hold.grammar, Grammar.terminals_pushAll, Grammar.size_pushAll]
      omega
  simp only [nameOf_of_none missing, exhausted]

theorem hold_insert (hold : Names.Hold kind g met w) (new : r ∉ met) :
    Names.Hold kind g (met ++ [r])
      { w with
        grammar := g.pushAll (met ++ [r])
        tables := w.tables.insert r (g.ruleId (g.size + met.length)) } := by
  refine ⟨rfl, ?_⟩
  intro s hs
  rw [Names.find?_insert]
  by_cases same : r = s
  · subst same
    simp [List.idxOf_append_of_notMem new]
  · rw [if_neg same, hold.table s hs]
    by_cases old : s ∈ met
    · simp [old, List.idxOf_append_of_mem old]
    · simp [old, Ne.symm same]

/-! ### Computations that name rules -/

theorem Keeps.refl (w : Workspace Names) : Keeps w w := ⟨rfl, rfl⟩

theorem Keeps.trans {w w' w'' : Workspace Names} (h : Keeps w w') (h' : Keeps w' w'') :
    Keeps w w'' := ⟨h'.text.trans h.text, h'.events.trans h.events⟩

/-- After the computation the rules in `met` have their ids and it has given `value`. If they do
not all get one, it has reported the first missing id. -/
def Gives {α : Type} (kind : Bool) (g : Grammar) (met : List Rule) (value : α) (x : Phase Names α)
    (w : Workspace Names) : Prop :=
  if g.terminals + g.size + met.length ≤ idSpace then
    ∃ w', x w = .ok value w' ∧ Names.Hold kind g met w' ∧ Keeps w w'
  else ∃ w', x w = .error (.idSpaceExhausted g.terminals (idSpace - g.terminals + 1)) w' ∧
    Keeps w w'

section Gives

variable {α β : Type} {value : α} {x : Phase Names α}

theorem gives_iff_of_room (room : g.terminals + g.size + met.length ≤ idSpace) :
    Gives kind g met value x w ↔
      ∃ w', x w = .ok value w' ∧ Names.Hold kind g met w' ∧ Keeps w w' := by
  rw [Gives, if_pos room]

theorem gives_iff_of_full (full : ¬ g.terminals + g.size + met.length ≤ idSpace) :
    Gives kind g met value x w ↔
      ∃ w', x w = .error (.idSpaceExhausted g.terminals (idSpace - g.terminals + 1)) w' ∧
        Keeps w w' := by
  rw [Gives, if_neg full]

theorem Gives.pure (hold : Names.Hold kind g met w)
    (fits : g.terminals + g.size + met.length ≤ idSpace) :
    Gives kind g met value (pure value) w := by
  rw [gives_iff_of_room fits]
  exact ⟨w, rfl, hold, Keeps.refl w⟩

/-- The ids run out in the first computation, or else the second one decides. -/
theorem Gives.bind {f : α → Phase Names β} {result : β} {met' : List Rule}
    (first : Gives kind g met value x w) (grows : met <+: met')
    (rest : ∀ w', Names.Hold kind g met w' → g.terminals + g.size + met.length ≤ idSpace →
      Gives kind g met' result (f value) w') :
    Gives kind g met' result (x >>= f) w := by
  by_cases room : g.terminals + g.size + met.length ≤ idSpace
  · obtain ⟨w₁, done, hold, keeps⟩ := (gives_iff_of_room room).mp first
    have second := rest w₁ hold room
    have run : (x >>= f) w = f value w₁ := Failing.bind_of_ok done
    by_cases fits : g.terminals + g.size + met'.length ≤ idSpace
    · obtain ⟨w₂, done', hold', keeps'⟩ := (gives_iff_of_room fits).mp second
      rw [gives_iff_of_room fits, run]
      exact ⟨w₂, done', hold', keeps.trans keeps'⟩
    · obtain ⟨w₂, failed, keeps'⟩ := (gives_iff_of_full fits).mp second
      rw [gives_iff_of_full fits, run]
      exact ⟨w₂, failed, keeps.trans keeps'⟩
  · obtain ⟨w₁, failed, keeps⟩ := (gives_iff_of_full room).mp first
    have more := grows.length_le
    have run : (x >>= f) w =
        .error (.idSpaceExhausted g.terminals (idSpace - g.terminals + 1)) w₁ :=
      Failing.bind_of_error failed
    rw [gives_iff_of_full (by omega), run]
    exact ⟨w₁, rfl, keeps⟩

end Gives

/-- A rule gets a name, or the first missing id is reported. -/
theorem gives_nameOf (hold : Names.Hold kind g met w)
    (fits : g.terminals + g.size + met.length ≤ idSpace) (hr : r.isBlock = kind) :
    Gives kind g (meet met r) (g.ruleId (g.size + (meet met r).idxOf r)) (nameOf r) w := by
  by_cases old : r ∈ met
  · have same : meet met r = met := if_pos old
    rw [same, gives_iff_of_room fits]
    exact ⟨w, nameOf_of_mem hold hr old, hold, Keeps.refl w⟩
  · have longer : meet met r = met ++ [r] := if_neg old
    have index : (met ++ [r]).idxOf r = met.length := by
      simp [List.idxOf_append_of_notMem old]
    have count : (met ++ [r]).length = met.length + 1 := List.length_append
    rw [longer, index]
    by_cases room : g.terminals + g.size + (met.length + 1) ≤ idSpace
    · rw [gives_iff_of_room (by rwa [count])]
      exact ⟨_, nameOf_of_notMem hold hr old room, hold_insert hold old, rfl, rfl⟩
    · rw [gives_iff_of_full (by rwa [count])]
      exact ⟨w, nameOf_of_full hold hr old fits room, Keeps.refl w⟩

theorem gives_symbolOf (hold : Names.Hold kind g met w)
    (fits : g.terminals + g.size + met.length ≤ idSpace) (piece : Piece)
    (kinds : ∀ r, piece = .folded r → r.isBlock = kind) :
    Gives kind g (piece.rule?.toList.foldl meet met)
      (Naming.symbolOf g (piece.rule?.toList.foldl meet met) piece) (symbolOf piece) w := by
  cases piece with
  | kept c => exact Gives.pure hold fits
  | folded r => exact gives_nameOf hold fits (kinds r rfl)

/-- The symbol of a piece stays the same when more rules are met. -/
theorem symbolOf_of_prefix {met' : List Rule} {piece : Piece}
    (grows : piece.rule?.toList.foldl meet met <+: met') :
    Naming.symbolOf g (piece.rule?.toList.foldl meet met) piece =
      Naming.symbolOf g met' piece := by
  cases piece with
  | kept c => rfl
  | folded r =>
      have final := grows.idxOf_eq_of_mem (Naming.mem_meet_self met r)
      exact congrArg (fun k => g.ruleId (g.size + k)) final

/-- All pieces are named, or the first missing id is reported. -/
theorem gives_mapM_symbolOf (hold : Names.Hold kind g met w)
    (fits : g.terminals + g.size + met.length ≤ idSpace) (pieces : List Piece)
    (kinds : ∀ r, .folded r ∈ pieces → r.isBlock = kind) :
    Gives kind g ((pieces.filterMap Piece.rule?).foldl meet met)
      (pieces.map (Naming.symbolOf g ((pieces.filterMap Piece.rule?).foldl meet met)))
      (pieces.mapM symbolOf) w := by
  induction pieces generalizing met w with
  | nil => exact Gives.pure hold fits
  | cons piece pieces ih =>
      have step : ((piece :: pieces).filterMap Piece.rule?).foldl meet met =
          (pieces.filterMap Piece.rule?).foldl meet (piece.rule?.toList.foldl meet met) := by
        cases piece <;> rfl
      have grows := Naming.prefix_foldl_meet (piece.rule?.toList.foldl meet met)
        (pieces.filterMap Piece.rule?)
      rw [List.mapM_cons, step, List.map_cons, ← symbolOf_of_prefix grows]
      apply (gives_symbolOf hold fits piece fun r h => kinds r (by simp [h])).bind grows
      intro w₁ hold₁ room
      apply (ih hold₁ room fun r h => kinds r (by simp [h])).bind List.prefix_rfl
      intro w₂ hold₂ room₂
      exact Gives.pure hold₂ room₂

/-! ### The simulation -/

theorem hold_clear (kind : Bool) (w : Workspace Names) :
    Names.Hold kind w.grammar [] { w with tables := w.tables.clear kind } := by
  refine ⟨rfl, ?_⟩
  rintro r rfl
  simp [Names.find?_clear]

theorem replace_matches (w : Workspace Names) (pieces : List Piece)
    (kinds : ∀ r, .folded r ∈ pieces → r.isBlock = kind)
    (fits : w.grammar.terminals + w.grammar.size ≤ idSpace) :
    Matches method (fun _ => True) (replace kind pieces w)
      (Naming.firstSeen.fold pieces (method.view w)) := by
  have named : Gives kind w.grammar (Naming.appearance (pieces.filterMap Piece.rule?))
      (pieces.map (Naming.symbolOf w.grammar (Naming.appearance (pieces.filterMap Piece.rule?))))
      (pieces.mapM symbolOf) { w with tables := w.tables.clear kind } :=
    gives_mapM_symbolOf (hold_clear kind w) fits pieces kinds
  by_cases room : w.grammar.terminals + w.grammar.size +
      (Naming.appearance (pieces.filterMap Piece.rule?)).length ≤ idSpace
  · obtain ⟨w', written, hold, keeps⟩ := (gives_iff_of_room room).mp named
    have folded := Naming.fold_of_reserve_ok (n := .firstSeen) (w := method.view w) (if_pos room)
    have replaced : replace kind pieces w = .ok (Piece.foldedCount pieces)
        { w' with text := pieces.map (Naming.symbolOf w.grammar
          (Naming.appearance (pieces.filterMap Piece.rule?))) } := by
      simp only [replace, bind, EStateM.bind, modify, modifyGet, MonadStateOf.modifyGet,
        EStateM.modifyGet, written, pure, EStateM.pure]
    rw [replaced, folded]
    apply Matches.ok trivial
    simp only [Method.view, hold.grammar, keeps.events]
    rfl
  · obtain ⟨w', failed, keeps⟩ := (gives_iff_of_full room).mp named
    have folded := Naming.fold_of_reserve_error (n := .firstSeen) (w := method.view w)
      (if_neg room)
    have replaced : replace kind pieces w = .error
        (.idSpaceExhausted w.grammar.terminals (idSpace - w.grammar.terminals + 1)) w' := by
      simp only [replace, bind, EStateM.bind, modify, modifyGet, MonadStateOf.modifyGet,
        EStateM.modifyGet, failed]
    rw [replaced, folded]
    exact .error keeps.events

theorem simulates : Simulates method (fun _ => True) .firstSeen where
  length_restore _ _ := rfl
  inv_report _ _ _ := trivial
  prepare_inside tables terminals text below := by
    refine ⟨{ text, tables, grammar := { terminals } }, ?_, trivial, rfl⟩
    simp only [method, Phase.check, Alphabet.check_of_below below]
  prepare_outside tables terminals text c found := by
    simp only [method, Phase.check, Alphabet.check_of_find? found]
  replaceRuns {_ _ w} _ _ s := 
    replace_matches w w.text.runPieces (fun _ => Text.isBlock_of_mem_runPieces) s.arena.fits
  replacePairs {_ _ w} _ _ s _ :=
    replace_matches w ((Partition.ofText w.text).pairPieces w.text)
      (fun _ => Partition.isBlock_of_mem_pairPieces) s.arena.fits

end FirstSeen

end RunGrammar
