import Mathlib
import RunGrammar.Compression.InPlace
import RunGrammar.Proofs.Compression.Dense
import RunGrammar.Proofs.Compression.Scanners

/-!
# Phases in place give the same answers

A pass reads what is ahead of it and writes behind, so it finds the pieces that
the text had at the start: this is the invariant of the scan, stated with the
part of the text that is still ahead. What has been written is what the pieces
read so far leave.

From this, a phase in place and the phase that leaves the text alone give the
same answer from the same workspace, and so do whole compressions. After a
failure grammar, tables and events are the same, too, and the text in place is
known: up to the piece that failed it is replaced and from there on as it was, or
it is the text of the placeholders.
-/

namespace RunGrammar.InPlace

/-! ### Reading from an array -/

theorem map_first_of_kept {pieces : List Piece} (kept : ∀ r, .folded r ∉ pieces) :
    pieces.map Piece.first = pieces.flatMap Piece.text := by
  induction pieces with
  | nil => rfl
  | cons piece pieces ih =>
      have rest := ih fun r hr => kept r (by simp [hr])
      cases piece with
      | kept c =>
          rw [List.map_cons, rest]
          rfl
      | folded r => exact absurd List.mem_cons_self (kept r)

theorem map_first_runPieces_of_kept {text : Text} (kept : ∀ r, .folded r ∉ text.runPieces) :
    text.runPieces.map Piece.first = text := by
  have single : ∀ run ∈ text.runs, [run.symbol] = run.text := by
    intro run member
    have one : run.length = 1 := by
      by_contra several
      apply kept (.block run.symbol (.ofNat run.length))
      exact List.mem_map.mpr ⟨run, member, if_neg several⟩
    rw [Run.text, one, List.replicate_one]
  calc text.runPieces.map Piece.first
      = text.runs.flatMap fun run => [run.symbol] := by
        rw [Text.runPieces, List.map_map, List.map_eq_flatMap]
        exact List.flatMap_congr fun run _ => congrArg (fun c => [c]) (Text.first_ofRun run)
    _ = text.runs.flatMap Run.text := List.flatMap_congr single
    _ = text := text.flatMap_text_runs

/-- From every position of every text the reader goes on with the first of these pieces. If none of
them is folded, the text stays as it is. -/
structure Finds (read : Reader) (pieces : Text → List Piece) : Prop where
  nil : pieces [] = []
  unchanged : ∀ text, (∀ r, .folded r ∉ pieces text) → (pieces text).map Piece.first = text
  cons : ∀ (text : Array Symbol) (i : Fin text.size),
    pieces (text.toList.drop i) =
      (read text i).piece :: pieces (text.toList.drop (read text i).stop)

theorem finds_readRun : Finds readRun Text.runPieces where
  nil := rfl
  unchanged _ := map_first_runPieces_of_kept
  cons text i := by
    have here : text.toList[i.val]? = some text[i] := by
      rw [Array.getElem?_toList]
      exact Array.getElem?_eq_getElem i.isLt
    have ends := Chunked.runEnd_spec text.toList text[i] (Nat.succ_le_of_lt i.isLt)
    exact Chunked.runPieces_drop here ends

theorem finds_readPair (partition : Partition) :
    Finds (readPair partition) partition.pairPieces where
  nil := rfl
  unchanged text kept := by rw [map_first_of_kept kept, partition.flatMap_text_pairPieces]
  cons text i := by
    have here : text.toList.drop i = text[i] :: text.toList.drop (i + 1) :=
      List.drop_eq_getElem_cons i.isLt
    rw [readPair, here]
    cases next : text[i.val + 1]? with
    | none =>
        have last : text.toList.drop (i + 1) = [] := by
          rw [List.drop_eq_nil_iff, ← List.getElem?_eq_none_iff, Array.getElem?_toList, next]
        rw [last]
        exact partition.pairPieces_singleton _
    | some b =>
        obtain ⟨inside, rfl⟩ := Array.getElem?_eq_some_iff.mp next
        have second : text.toList.drop (i + 1) = text[i.val + 1] :: text.toList.drop (i + 2) :=
          List.drop_eq_getElem_cons inside
        rw [second]
        cases eligible : partition.eligible text[i] text[i.val + 1] with
        | true =>
            rw [partition.pairPieces_of_eligible eligible]
            simp only [eligible, if_true]
        | false =>
            rw [partition.pairPieces_of_not_eligible eligible, ← second]
            simp only [eligible, Bool.false_eq_true, if_false]

/-! ### What a pass leaves -/

variable {ε τ : Type}

/-- The symbols that pieces leave from a position on, and how that ends. -/
def leaveAll (leave : Nat → Piece → EStateM ε τ Symbol) (position : Nat) :
    List Piece → τ → Text × EStateM.Result ε τ Unit
  | [], s => ([], .ok () s)
  | piece :: pieces, s =>
    match leave position piece s with
    | .error e s' => ([], .error e s')
    | .ok v s' =>
      let later := leaveAll leave (position + 1) pieces s'
      (v :: later.1, later.2)

/-- These symbols have been written on top of the text, and the rest of it is untouched. -/
structure Overwrites (pass : Pass) (symbols : Text) (after : Pass) : Prop where
  write : after.write = pass.write + symbols.length
  text : after.text.toList =
    pass.text.toList.take pass.write ++ symbols ++
      pass.text.toList.drop (pass.write + symbols.length)

theorem Overwrites.refl (pass : Pass) : Overwrites pass [] pass where
  write := rfl
  text := by simp

theorem Overwrites.put {pass after : Pass} {v : Symbol} {symbols : Text}
    (inside : pass.read < pass.text.size) (reading : Reading pass.read)
    (later : Overwrites (pass.put inside reading v) symbols after) :
    Overwrites pass (v :: symbols) after where
  write := by
    rw [later.write, List.length_cons, Nat.add_comm symbols.length, ← Nat.add_assoc]
    rfl
  text := by
    have room : pass.write < pass.text.toList.length := Nat.lt_of_le_of_lt pass.behind inside
    have front : (pass.text.toList.set pass.write v).take (pass.write + 1) =
        pass.text.toList.take pass.write ++ [v] := by
      rw [List.take_add_one, List.take_set_of_le (Nat.le_refl _), List.getElem?_set_self room]
      rfl
    have back (k : Nat) : (pass.text.toList.set pass.write v).drop (pass.write + 1 + k) =
        pass.text.toList.drop (pass.write + (k + 1)) := by
      rw [List.drop_set_of_lt (by omega), Nat.add_assoc, Nat.add_comm 1]
    rw [later.text]
    simp only [Pass.put, Array.toList_set, front, back, List.length_cons, List.append_assoc,
      List.singleton_append]

/-- What is ahead of a pass does not change when it goes on. -/
theorem drop_put (pass : Pass) (inside : pass.read < pass.text.size)
    (reading : Reading pass.read) (v : Symbol) :
    (pass.put inside reading v).text.toList.drop reading.stop =
      pass.text.toList.drop reading.stop := by
  rw [Pass.put, Array.toList_set]
  exact List.drop_set_of_lt (Nat.lt_of_le_of_lt pass.behind reading.forward)

/-- A scan finds the pieces that are ahead of it and leaves their symbols. -/
theorem scan_spec {read : Reader} {pieces : Text → List Piece} (finds : Finds read pieces)
    (leave : Nat → Piece → EStateM ε τ Symbol) (pass : Pass) (s : τ) :
    let left := leaveAll leave pass.write (pieces (pass.text.toList.drop pass.read)) s
    (scan read leave pass s).2 = left.2 ∧ Overwrites pass left.1 (scan read leave pass s).1 := by
  fun_induction scan read leave pass s with
  | case1 pass s inside reading e s' failed =>
      rw [finds.cons pass.text ⟨pass.read, inside⟩, leaveAll, failed]
      exact ⟨rfl, .refl pass⟩
  | case2 pass s inside reading v s' done ih =>
      have ahead : (pass.put inside reading v).text.toList.drop (pass.put inside reading v).read =
          pass.text.toList.drop reading.stop := drop_put pass inside reading v
      rw [finds.cons pass.text ⟨pass.read, inside⟩, leaveAll, done]
      rw [ahead] at ih
      exact ⟨ih.1, ih.2.put inside reading⟩
  | case3 pass s outside =>
      have nothing : pass.text.toList.drop pass.read = [] :=
        List.drop_eq_nil_of_le (Nat.not_lt.mp outside)
      rw [nothing, finds.nil]
      exact ⟨rfl, .refl pass⟩

variable {text symbols : Text} {after : Pass}

theorem Overwrites.text_start (h : Overwrites (.start text.toArray) symbols after) :
    after.text.toList = symbols ++ text.drop symbols.length := by
  rw [h.text]
  simp [Pass.start]

theorem Overwrites.written (h : Overwrites (.start text.toArray) symbols after) :
    after.written = symbols := by
  have stop : after.write = symbols.length := h.write.trans (Nat.zero_add _)
  rw [Pass.written, Array.take_eq_extract, Array.toList_extract, List.extract_eq_take_drop,
    h.text_start, stop, List.drop_zero]
  exact List.take_left

/-- A scan of a whole text. -/
theorem scan_start {read : Reader} {pieces : Text → List Piece} (finds : Finds read pieces)
    {leave : Nat → Piece → EStateM ε τ Symbol} {s : τ} {result : EStateM.Result ε τ Unit}
    (left : leaveAll leave 0 (pieces text) s = (symbols, result)) :
    ∃ after, scan read leave (.start text.toArray) s = (after, result) ∧
      after.written = symbols ∧ after.text.toList = symbols ++ text.drop symbols.length := by
  obtain ⟨ended, overwrites⟩ := scan_spec finds leave (.start text.toArray) s
  simp only [Pass.start, List.drop_zero, left] at ended overwrites
  exact ⟨_, Prod.ext rfl ended, overwrites.written, overwrites.text_start⟩

/-! ### Answers -/

variable {σ α β : Type}

/-- The same answer and the same workspace, except that a failure may leave another text. -/
inductive Agrees : EStateM.Result Failure (Workspace σ) α → EStateM.Result Failure (Workspace σ) α →
    Prop where
  | ok (a : α) (w : Workspace σ) : Agrees (.ok a w) (.ok a w)
  | error (e : Failure) (w : Workspace σ) (text : Text) :
      Agrees (.error e { w with text }) (.error e w)

/-- From every workspace the two actions agree. -/
def Agree (x y : Phase σ α) : Prop := ∀ w, Agrees (x w) (y w)

namespace Agree

theorem refl (x : Phase σ α) : Agree x x := by
  intro w
  cases x w with
  | ok a w' => exact .ok a w'
  | error e w' => exact .error e w' w'.text

theorem bind {x y : Phase σ α} {f g : α → Phase σ β} (first : Agree x y)
    (rest : ∀ a, Agree (f a) (g a)) : Agree (x >>= f) (y >>= g) := by
  intro w
  have same := first w
  generalize hx : x w = r, hy : y w = r' at same
  cases same with
  | ok a w' =>
      rw [Failing.bind_of_ok hx, Failing.bind_of_ok hy]
      exact rest a w'
  | error e w' text =>
      rw [Failing.bind_of_error hx, Failing.bind_of_error hy]
      exact .error e w' text

variable (m : Method σ) {runs pairs : Phase σ Nat}

/-- Rounds agree if their phases do. -/
theorem round (sameRuns : Agree runs m.replaceRuns) (samePairs : Agree pairs m.replacePairs)
    (level : Nat) :
    Agree (Method.round { m with replaceRuns := runs, replacePairs := pairs } level)
      (m.round level) := by
  apply (refl Phase.textLength).bind
  intro before
  apply sameRuns.bind
  intro count
  apply (refl Phase.textLength).bind
  intro between
  apply (refl (Phase.report _)).bind
  intro _
  by_cases long : 1 < between
  · simp only [if_pos long]
    exact samePairs.bind fun _ => refl _
  · simp only [if_neg long]
    exact refl _

/-- By induction on the text that is left: a round that succeeds leaves the same one. -/
theorem rounds (sameRuns : Agree runs m.replaceRuns) (samePairs : Agree pairs m.replacePairs)
    (level : Nat) :
    Agree (Method.rounds { m with replaceRuns := runs, replacePairs := pairs } level)
      (m.rounds level) := by
  intro w
  induction hn : w.text.length using Nat.strongRecOn generalizing w level with
  | ind n ih =>
      rw [Method.rounds, Method.rounds]
      split
      · exact .ok level w
      · have step := round m sameRuns samePairs level w
        generalize Method.round _ level w = r, m.round level w = r' at step
        cases step with
        | error e w' text => exact .error e w' text
        | ok _ w' =>
            dsimp only
            split
            · next shorter => exact ih w'.text.length (hn ▸ shorter) (level + 1) w' rfl
            · exact refl _ w'

/-- So do whole compressions. -/
theorem compress (sameRuns : Agree runs m.replaceRuns) (samePairs : Agree pairs m.replacePairs)
    (tables : σ) (terminals : Nat) (text : Text) :
    Agrees
      (Method.compress { m with replaceRuns := runs, replacePairs := pairs } tables terminals text)
      (m.compress tables terminals text) := by
  have all : Agree (Method.run { m with replaceRuns := runs, replacePairs := pairs } terminals)
      (m.run terminals) := by
    apply (refl (Phase.reserve 0)).bind
    intro _
    apply (refl (m.prepare terminals)).bind
    intro _
    apply (rounds m sameRuns samePairs 0).bind
    intro levels
    exact refl (m.finish levels)
  exact all _

end Agree

/-! ### Names in order of appearance -/

section FirstSeen

open FirstSeen (symbolOf Names)

variable {w w' : Workspace Names} {pieces : List Piece} {e : Failure}

theorem nameOrKeep_of_ok {piece : Piece} {v : Symbol} (done : symbolOf piece w = .ok v w')
    (k : Nat) :
    nameOrKeep piece ⟨w, k⟩ = .ok v ⟨w', k + Piece.foldedCount [piece]⟩ := by
  cases piece with
  | kept c =>
      cases done
      rfl
  | folded r =>
      have named : FirstSeen.nameOf r w = .ok v w' := done
      simp only [nameOrKeep, named, Piece.foldedCount_folded, Piece.foldedCount_nil]

theorem nameOrKeep_of_error {piece : Piece} (failed : symbolOf piece w = .error e w') (k : Nat) :
    nameOrKeep piece ⟨w, k⟩ = .error e ⟨w', k⟩ := by
  cases piece with
  | kept c => cases failed
  | folded r =>
      have named : FirstSeen.nameOf r w = .error e w' := failed
      simp only [nameOrKeep, named]

theorem mapM_symbolOf_cons_of_ok {piece : Piece} {v : Symbol}
    (first : symbolOf piece w = .ok v w') :
    (piece :: pieces).mapM symbolOf w =
      (pieces.mapM symbolOf >>= fun symbols => pure (v :: symbols)) w' := by
  rw [List.mapM_cons]
  exact Failing.bind_of_ok first

/-- If all pieces get their symbols, these are left, and the replaced pieces are counted. -/
theorem leaveAll_of_ok {symbols : Text} (done : pieces.mapM symbolOf w = .ok symbols w')
    (position k : Nat) :
    leaveAll (fun _ => nameOrKeep) position pieces ⟨w, k⟩ =
      (symbols, .ok () ⟨w', k + Piece.foldedCount pieces⟩) := by
  induction pieces generalizing w symbols position k with
  | nil =>
      cases done
      rfl
  | cons piece pieces ih =>
      cases first : symbolOf piece w with
      | error e w₁ =>
          rw [List.mapM_cons, Failing.bind_of_error first] at done
          cases done
      | ok v w₁ =>
          rw [mapM_symbolOf_cons_of_ok first] at done
          cases rest : pieces.mapM symbolOf w₁ with
          | error e w₂ =>
              rw [Failing.bind_of_error rest] at done
              cases done
          | ok symbols' w₂ =>
              rw [Failing.bind_of_ok rest] at done
              cases done
              have count : k + Piece.foldedCount [piece] + Piece.foldedCount pieces =
                  k + Piece.foldedCount (piece :: pieces) := by
                rw [Nat.add_assoc]
                exact congrArg (k + ·) List.countP_append.symm
              simp only [leaveAll, nameOrKeep_of_ok first, ih rest, count]

/-- One of the pieces does not get a symbol, and those before it have got these. -/
def StopsAfter (pieces : List Piece) (w : Workspace Names) (symbols : Text) (e : Failure)
    (w' : Workspace Names) : Prop :=
  ∃ done piece rest w₁, pieces = done ++ piece :: rest ∧
    done.mapM symbolOf w = .ok symbols w₁ ∧ symbolOf piece w₁ = .error e w'

/-- If a piece does not get a symbol, the symbols of the pieces before it are left. -/
theorem leaveAll_of_error (failed : pieces.mapM symbolOf w = .error e w') (position k : Nat) :
    ∃ symbols k', StopsAfter pieces w symbols e w' ∧
      leaveAll (fun _ => nameOrKeep) position pieces ⟨w, k⟩ = (symbols, .error e ⟨w', k'⟩) := by
  induction pieces generalizing w position k with
  | nil => cases failed
  | cons piece pieces ih =>
      cases first : symbolOf piece w with
      | error e₁ w₁ =>
          rw [List.mapM_cons, Failing.bind_of_error first] at failed
          cases failed
          refine ⟨[], k, ⟨[], piece, pieces, w, rfl, rfl, first⟩, ?_⟩
          simp only [leaveAll, nameOrKeep_of_error first]
      | ok v w₁ =>
          rw [mapM_symbolOf_cons_of_ok first] at failed
          cases rest : pieces.mapM symbolOf w₁ with
          | ok symbols w₂ =>
              rw [Failing.bind_of_ok rest] at failed
              cases failed
          | error e₁ w₂ =>
              rw [Failing.bind_of_error rest] at failed
              cases failed
              obtain ⟨symbols, k', ⟨done, next, others, w₃, rfl, all, stop⟩, left⟩ :=
                ih rest (position + 1) (k + Piece.foldedCount [piece])
              refine ⟨v :: symbols, k', ⟨piece :: done, next, others, w₃, rfl, ?_, stop⟩, ?_⟩
              · rw [mapM_symbolOf_cons_of_ok first]
                exact Failing.bind_of_ok all
              · simp only [leaveAll, nameOrKeep_of_ok first, left]

/-- The workspace in which a phase begins to name rules. -/
def cleared (isBlock : Bool) (w : Workspace Names) : Workspace Names :=
  { w with tables := w.tables.clear isBlock }

variable {read : Reader} {found : Text → List Piece} {isBlock : Bool} {symbols : Text}

theorem replace_of_ok (done : pieces.mapM symbolOf (cleared isBlock w) = .ok symbols w') :
    FirstSeen.replace isBlock pieces w =
      .ok (Piece.foldedCount pieces) { w' with text := symbols } := by
  rw [cleared] at done
  simp only [FirstSeen.replace, bind, EStateM.bind, modify, modifyGet, MonadStateOf.modifyGet,
    EStateM.modifyGet, done, pure, EStateM.pure]

theorem replace_of_error (failed : pieces.mapM symbolOf (cleared isBlock w) = .error e w') :
    FirstSeen.replace isBlock pieces w = .error e w' := by
  rw [cleared] at failed
  simp only [FirstSeen.replace, bind, EStateM.bind, modify, modifyGet, MonadStateOf.modifyGet,
    EStateM.modifyGet, failed]

theorem replaceFirstSeen_of_ok (finds : Finds read found)
    (done : (found w.text).mapM symbolOf (cleared isBlock w) = .ok symbols w') :
    replaceFirstSeen isBlock read w =
      .ok (Piece.foldedCount (found w.text)) { w' with text := symbols } := by
  obtain ⟨after, run, written, -⟩ := scan_start finds (leaveAll_of_ok done 0 0)
  rw [replaceFirstSeen]
  simp only [cleared] at run
  simp only [run, written, Nat.zero_add]

/-- The text that a phase leaves in place when it fails between two pieces. -/
theorem replaceFirstSeen_of_error (finds : Finds read found)
    (failed : (found w.text).mapM symbolOf (cleared isBlock w) = .error e w') :
    ∃ symbols, StopsAfter (found w.text) (cleared isBlock w) symbols e w' ∧
      replaceFirstSeen isBlock read w =
        .error e { w' with text := symbols ++ w.text.drop symbols.length } := by
  obtain ⟨symbols, k, stops, left⟩ := leaveAll_of_error failed 0 0
  obtain ⟨after, run, -, text⟩ := scan_start finds left
  refine ⟨symbols, stops, ?_⟩
  rw [replaceFirstSeen]
  simp only [cleared] at run
  simp only [run, text]

/-- In place, a phase gives the same answer. -/
theorem agrees_replaceFirstSeen (finds : Finds read found) (isBlock : Bool)
    (w : Workspace Names) :
    Agrees (replaceFirstSeen isBlock read w) (FirstSeen.replace isBlock (found w.text) w) := by
  cases named : (found w.text).mapM symbolOf (cleared isBlock w) with
  | ok symbols w' =>
      rw [replaceFirstSeen_of_ok finds named, replace_of_ok named]
      exact .ok _ _
  | error e w' =>
      obtain ⟨symbols, -, failed⟩ := replaceFirstSeen_of_error finds named
      rw [failed, replace_of_error named]
      exact .error e w' _

/-- In place, a compression gives the same answer. -/
theorem agrees_compress_firstSeen (names : Names) (terminals : Nat) (text : Text) :
    Agrees (firstSeen.compress names terminals text)
      (FirstSeen.method.compress names terminals text) := by
  apply Agree.compress
  · exact agrees_replaceFirstSeen finds_readRun true
  · intro w
    exact agrees_replaceFirstSeen (finds_readPair (Partition.ofText w.text)) false w

end FirstSeen

/-! ### On a dense alphabet -/

section Dense

open DenseAlphabet (Occurrence occurrences groups Draft)

variable {w w' : Workspace (Array Symbol)} {pieces : List Piece} {e : Failure}

/-- Placeholders are left, and the occurrences are recorded with their positions. -/
theorem leaveAll_markOrKeep (pieces : List Piece) :
    leaveAll markOrKeep 0 pieces #[] =
      (pieces.map Piece.first, .ok () (occurrences pieces).toArray) := by
  have from' (position : Nat) (found : Array Occurrence) :
      leaveAll markOrKeep position pieces found =
        (pieces.map Piece.first, .ok () (found ++ ((pieces.zipIdx position).filterMap
          fun x => x.1.rule?.map (⟨·, x.2⟩ : Rule → Occurrence)).toArray)) := by
    induction pieces generalizing position found with
    | nil => simp [leaveAll]
    | cons piece pieces ih =>
        cases piece with
        | kept c => simp [leaveAll, markOrKeep, Piece.rule?, ih]
        | folded r => simp [leaveAll, markOrKeep, Piece.rule?, ih]
  rw [from' 0 #[], Array.empty_append]
  rfl

/-- The workspace with the placeholders. -/
def marked (w : Workspace (Array Symbol)) (pieces : List Piece) : Workspace (Array Symbol) :=
  { w with text := pieces.map Piece.first }

variable {read : Reader} {found : Text → List Piece}

/-- Without occurrences, the placeholders are all that is written. -/
theorem replaceDense_of_none (finds : Finds read found) (none : occurrences (found w.text) = []) :
    replaceDense read w = .ok 0 (marked w (found w.text)) := by
  have left := leaveAll_markOrKeep (found w.text)
  rw [none] at left
  obtain ⟨after, run, written, -⟩ := scan_start finds left
  simp only [replaceDense, bind, EStateM.bind, get, getThe, MonadStateOf.get, EStateM.get, run,
    modify, modifyGet, MonadStateOf.modifyGet, EStateM.modifyGet, written]
  rfl

/-- Otherwise the rules are assigned after that. -/
theorem replaceDense_of_some (finds : Finds read found) (some : occurrences (found w.text) ≠ []) :
    replaceDense read w =
      (assign (occurrences (found w.text)) >>= fun _ =>
        pure (occurrences (found w.text)).length) (marked w (found w.text)) := by
  have left := leaveAll_markOrKeep (found w.text)
  obtain ⟨after, run, written, -⟩ := scan_start finds left
  simp only [replaceDense, bind, EStateM.bind, get, getThe, MonadStateOf.get, EStateM.get, run,
    modify, modifyGet, MonadStateOf.modifyGet, EStateM.modifyGet, written, List.size_toArray,
    List.length_pos_iff, some, ne_eq, not_false_eq_true, if_true]
  rfl

theorem assign_of_error {found : List Occurrence}
    (full : w.grammar.reserve (groups found).length = .error e) : assign found w = .error e w := by
  simp only [assign, bind, EStateM.bind, Phase.reserve, Phase.check, full]

theorem assign_of_ok {found : List Occurrence}
    (room : w.grammar.reserve (groups found).length = .ok ()) :
    assign found w = .ok () (DenseAlphabet.afterDraft w
      ((groups found).foldl Draft.enrol ⟨w.grammar, w.tables, w.text.toArray⟩)) := by
  simp only [assign, bind, EStateM.bind, Phase.reserve, Phase.check, room]
  rfl

/-- The text that a phase leaves in place when the ids run out: the one with the placeholders. -/
theorem replaceDense_of_error (finds : Finds read found) (some : occurrences (found w.text) ≠ [])
    (full : w.grammar.reserve (groups (occurrences (found w.text))).length = .error e) :
    replaceDense read w = .error e (marked w (found w.text)) := by
  rw [replaceDense_of_some finds some]
  exact Failing.bind_of_error (assign_of_error full)

/-- In place, a phase gives the same answer. -/
theorem agrees_replaceDense (finds : Finds read found) (w : Workspace (Array Symbol)) :
    Agrees (replaceDense read w) (DenseAlphabet.replace (found w.text) w) := by
  by_cases none : occurrences (found w.text) = []
  · have same : marked w (found w.text) = w := by
      rw [marked, finds.unchanged w.text (DenseAlphabet.folded_notMem_of_none none)]
    rw [replaceDense_of_none finds none, DenseAlphabet.replace_of_none none, same]
    exact .ok 0 w
  · cases reserved : w.grammar.reserve (groups (occurrences (found w.text))).length with
    | error e =>
        rw [replaceDense_of_error finds none reserved,
          DenseAlphabet.replace_of_exhausted none reserved]
        exact .error e w _
    | ok _ =>
        have assigned := assign_of_ok (w := marked w (found w.text)) reserved
        rw [replaceDense_of_some finds none, Failing.bind_of_ok assigned,
          DenseAlphabet.replace_of_room none reserved]
        exact .ok _ _

/-- In place, a compression gives the same answer. -/
theorem agrees_compress_dense (mapping : Array Symbol) (terminals : Nat) (text : Text) :
    Agrees (dense.compress mapping terminals text)
      (DenseAlphabet.method.compress mapping terminals text) := by
  apply Agree.compress
  · exact agrees_replaceDense finds_readRun
  · intro w
    let partition := Partition.ofText w.text
    have inPlace : dense.replacePairs w = replaceDense (readPair partition) w :=
      Failing.bind_of_ok rfl
    have other : DenseAlphabet.method.replacePairs w =
        DenseAlphabet.replace (partition.pairPieces w.text) w := Failing.bind_of_ok rfl
    change Agrees (dense.replacePairs w) _
    rw [inPlace, other]
    exact agrees_replaceDense (finds_readPair partition) w

end Dense

end RunGrammar.InPlace
