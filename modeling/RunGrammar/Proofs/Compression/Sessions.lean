import Mathlib
import RunGrammar.Proofs.Compression.Totality

/-!
# One compressor for many texts

A compressor keeps its tables from one text to the next, and when it fails in
the middle of a phase it keeps them as they are at that point. Two runs from
workspaces that differ only in the tables are therefore compared step by step.
Two actions are in lockstep if their answers are the same and the tables that
they leave are related again. A phase that names rules as they appear looks up
rules of one kind only, and of these the table was emptied at its start. On a
dense alphabet the mapping is set up for the text before it is used.

So what was kept never shows in an outcome, and a compressor that has seen any
texts, with or without success, answers like a fresh one. The length of the
texts does not matter. Where chunks are tested at the same time, any order of
the tests is allowed, as long as there is only one symbol to be reported.
-/

namespace RunGrammar

variable {σ α β : Type}

/-- Nothing but the tables differs, and these are related. -/
structure Workspace.Alike (S : σ → σ → Prop) (w w' : Workspace σ) : Prop where
  text : w.text = w'.text
  grammar : w.grammar = w'.grammar
  events : w.events = w'.events
  tables : S w.tables w'.tables

/-- The same value or the same failure. After a failure the tables are left as they happen to be. -/
inductive SameAnswer (S : σ → σ → Prop) :
    EStateM.Result Failure (Workspace σ) α → EStateM.Result Failure (Workspace σ) α → Prop where
  | ok (a : α) {w w' : Workspace σ} (alike : w.Alike S w') : SameAnswer S (.ok a w) (.ok a w')
  | error (e : Failure) {w w' : Workspace σ} (alike : w.Alike ⊤ w') :
      SameAnswer S (.error e w) (.error e w')

theorem SameAnswer.ofRun {S : σ → σ → Prop}
    {r r' : EStateM.Result Failure (Workspace σ) Grammar} (same : SameAnswer S r r') :
    Outcome.ofRun r = Outcome.ofRun r' := by
  cases same with
  | ok g alike => simp only [Outcome.ofRun, alike.text, alike.events]
  | error e alike => simp only [Outcome.ofRun, alike.text, alike.events]

namespace Phase

/-- From workspaces that are alike, both actions give the same answer. -/
def Lockstep (S S' : σ → σ → Prop) (x y : Phase σ α) : Prop :=
  ∀ w w', w.Alike S w' → SameAnswer S' (x w) (y w')

namespace Lockstep

variable {S S' S'' : σ → σ → Prop} {x y : Phase σ α}

theorem pure (a : α) : Lockstep S S (Pure.pure a) (Pure.pure a) := fun _ _ alike => .ok a alike

theorem bind {f g : α → Phase σ β} (first : Lockstep S S' x y)
    (rest : ∀ a, Lockstep S' S'' (f a) (g a)) : Lockstep S S'' (x >>= f) (y >>= g) := by
  intro w w' alike
  have same := first w w' alike
  show SameAnswer S'' (EStateM.bind x f w) (EStateM.bind y g w')
  simp only [EStateM.bind]
  generalize x w = r, y w' = r' at same
  cases same with
  | ok a alike' => exact rest a _ _ alike'
  | error e alike' => exact .error e alike'

/-- From equal workspaces an action gives equal answers. -/
theorem refl (x : Phase σ α) : Lockstep Eq Eq x x := by
  rintro ⟨_, _, _, _⟩ ⟨_, _, _, _⟩ ⟨rfl, rfl, rfl, rfl⟩
  cases x _ with
  | ok a w => exact .ok a ⟨rfl, rfl, rfl, rfl⟩
  | error e w => exact .error e ⟨rfl, rfl, rfl, trivial⟩

/-- Tests agree if they do not look at the tables. -/
theorem check {test : Workspace σ → Except Failure α}
    (same : ∀ w w', w.Alike S w' → test w = test w') :
    Lockstep S S (Phase.check test) (Phase.check test) := by
  intro w w' alike
  simp only [Phase.check, same w w' alike]
  cases test w' with
  | ok a => exact .ok a alike
  | error e => exact .error e ⟨alike.text, alike.grammar, alike.events, trivial⟩

theorem reserve (additional : Nat) :
    Lockstep S S (Phase.reserve additional) (Phase.reserve additional) :=
  check fun _ _ alike => by rw [alike.grammar]

theorem report (e : Event) : Lockstep S S (Phase.report e) (Phase.report e) :=
  fun _ _ alike => .ok () ⟨alike.text, alike.grammar, by simp only [alike.events], alike.tables⟩

theorem textLength : Lockstep S S (Phase.textLength (σ := σ)) Phase.textLength := by
  intro w w' alike
  have same : Phase.textLength w' = .ok w.text.length w' := by
    rw [alike.text]
    rfl
  exact same ▸ .ok _ alike

/-- What is done with the text may depend on it. -/
theorem ofText {f g : Text → Phase σ α} (each : ∀ text, Lockstep S S' (f text) (g text)) :
    Lockstep S S' (get >>= fun w => f w.text) (get >>= fun w => g w.text) := by
  intro w w' alike
  have same := each w.text w w' alike
  have second : (get >>= fun w => g w.text) w' = g w.text w' := by
    rw [alike.text]
    rfl
  exact second ▸ same

end Lockstep

end Phase

/-! ### Whole compressions -/

/-- Methods of one name, phase by phase in lockstep. Before the phases they may differ. -/
structure Method.Lockstep (S : σ → σ → Prop) (m m' : Method σ) : Prop where
  name : m.name = m'.name
  replaceRuns : Phase.Lockstep S S m.replaceRuns m'.replaceRuns
  replacePairs : Phase.Lockstep S S m.replacePairs m'.replacePairs
  restore : ∀ tables tables' text, S tables tables' →
    m.restore tables text = m'.restore tables' text

namespace Method.Lockstep

variable {S : σ → σ → Prop} {m m' : Method σ}

theorem round (h : m.Lockstep S m') (level : Nat) :
    Phase.Lockstep S S (m.round level) (m'.round level) := by
  apply Phase.Lockstep.textLength.bind
  intro before
  apply h.replaceRuns.bind
  intro runs
  apply Phase.Lockstep.textLength.bind
  intro between
  apply (Phase.Lockstep.report _).bind
  intro _
  by_cases long : 1 < between
  · simp only [if_pos long]
    apply h.replacePairs.bind
    intro pairs
    apply Phase.Lockstep.textLength.bind
    intro after
    exact Phase.Lockstep.report _
  · simp only [if_neg long]
    exact Phase.Lockstep.pure _

/-- By induction on the text that is left. -/
theorem rounds (h : m.Lockstep S m') (level : Nat) :
    Phase.Lockstep S S (m.rounds level) (m'.rounds level) := by
  intro w w' alike
  induction hn : w.text.length using Nat.strongRecOn generalizing w w' level with
  | ind n ih =>
      by_cases short : w.text.length ≤ 1
      · rw [rounds_of_short short, rounds_of_short (alike.text ▸ short)]
        exact .ok level alike
      · have step := h.round level w w' alike
        rw [Method.rounds, Method.rounds, if_neg short, if_neg (alike.text ▸ short), ← alike.text]
        generalize m.round level w = r, m'.round level w' = r' at step
        cases step with
        | error e alike' => exact .error e alike'
        | @ok _ w₁ w₁' alike' =>
            dsimp only
            rw [← alike'.text]
            by_cases shorter : w₁.text.length < w.text.length
            · rw [if_pos shorter, if_pos shorter]
              exact ih w₁.text.length (hn ▸ shorter) (level + 1) w₁ w₁' alike' rfl
            · rw [if_neg shorter, if_neg shorter]
              exact .error _ ⟨alike'.text, alike'.grammar, by simp only [alike'.events], trivial⟩

theorem finish (h : m.Lockstep S m') (levels : Nat) :
    Phase.Lockstep S S (m.finish levels) (m'.finish levels) := by
  intro w w' alike
  have view : m.view w = m'.view w' := by
    simp only [view, alike.text, alike.grammar, alike.events, h.restore _ _ _ alike.tables]
  rw [finish_eq, finish_eq, view, h.name, alike.events]
  exact .ok _ ⟨rfl, rfl, rfl, alike.tables⟩

/-- If both methods prepare a text in the same way, its compression has the same outcome. -/
theorem ofRun_compress (h : m.Lockstep S m') {tables tables' : σ} {terminals : Nat} {text : Text}
    (prepared : SameAnswer S (m.prepare terminals { text, tables, grammar := { terminals } })
      (m'.prepare terminals { text, tables := tables', grammar := { terminals } })) :
    Outcome.ofRun (m.compress tables terminals text) =
      .ofRun (m'.compress tables' terminals text) := by
  obtain large | small := Nat.lt_or_ge idSpace terminals
  · rw [m.compress_of_terminals tables text large, m'.compress_of_terminals tables' text large]
    rfl
  · generalize first : m.prepare terminals _ = r, second : m'.prepare terminals _ = r' at prepared
    cases prepared with
    | error e alike =>
        rw [compress_of_prepare_error small first, compress_of_prepare_error small second]
        exact (SameAnswer.error (S := S) e alike).ofRun
    | ok _ alike =>
        have rest : Phase.Lockstep S S (m.rounds 0 >>= m.finish) (m'.rounds 0 >>= m'.finish) :=
          (h.rounds 0).bind h.finish
        rw [compress_of_prepare_ok small first, compress_of_prepare_ok small second]
        exact (rest _ _ alike).ofRun

end Method.Lockstep

/-! ### What the strategies keep -/

namespace FirstSeen

/-- The same symbols for all rules of a kind. -/
def Names.AgreeOn (kind : Bool) (names names' : Names) : Prop :=
  ∀ r, r.isBlock = kind → names.find? r = names'.find? r

variable {kind : Bool} {r : Rule}

/-- With an empty table for its kind, a phase starts from the same symbols, which are none. -/
theorem Names.agreeOn_clear (kind : Bool) (names names' : Names) :
    AgreeOn kind (names.clear kind) (names'.clear kind) := by
  rintro r rfl
  rw [find?_clear, find?_clear]

theorem Names.AgreeOn.insert {names names' : Names} (h : AgreeOn kind names names') (r : Rule)
    (v : Symbol) : AgreeOn kind (names.insert r v) (names'.insert r v) := by
  intro s hs
  rw [find?_insert, find?_insert, h s hs]

/-- Only rules of the kind of the phase are looked up. -/
theorem lockstep_nameOf (hr : r.isBlock = kind) :
    Phase.Lockstep (Names.AgreeOn kind) (Names.AgreeOn kind) (nameOf r) (nameOf r) := by
  intro w w' alike
  have same := alike.tables r hr
  cases found : w'.tables.find? r with
  | some v =>
      rw [nameOf_of_some (same.trans found), nameOf_of_some found]
      exact .ok v alike
  | none =>
      rw [nameOf_of_none (same.trans found), nameOf_of_none found, alike.grammar]
      cases w'.grammar.reserve 1 with
      | error e => exact .error e ⟨alike.text, alike.grammar, alike.events, trivial⟩
      | ok _ => exact .ok _ ⟨alike.text, rfl, alike.events, alike.tables.insert r _⟩

theorem lockstep_mapM_symbolOf {pieces : List Piece}
    (kinds : ∀ r, .folded r ∈ pieces → r.isBlock = kind) :
    Phase.Lockstep (Names.AgreeOn kind) (Names.AgreeOn kind) (pieces.mapM symbolOf)
      (pieces.mapM symbolOf) := by
  induction pieces with
  | nil => exact Phase.Lockstep.pure []
  | cons piece pieces ih =>
      have first : Phase.Lockstep (Names.AgreeOn kind) (Names.AgreeOn kind) (symbolOf piece)
          (symbolOf piece) := by
        cases piece with
        | kept c => exact Phase.Lockstep.pure c
        | folded r => exact lockstep_nameOf (kinds r (by simp))
      rw [List.mapM_cons]
      apply first.bind
      intro symbol
      apply (ih fun r hr => kinds r (by simp [hr])).bind
      intro text
      exact Phase.Lockstep.pure _

/-- Whatever the tables hold, a phase gives the same answer. -/
theorem lockstep_replace {pieces : List Piece}
    (kinds : ∀ r, .folded r ∈ pieces → r.isBlock = kind) :
    Phase.Lockstep ⊤ ⊤ (replace kind pieces) (replace kind pieces) := by
  have clear : Phase.Lockstep ⊤ (Names.AgreeOn kind)
      (modify fun w => { w with tables := w.tables.clear kind } : Phase Names Unit)
      (modify fun w => { w with tables := w.tables.clear kind }) := fun w w' alike =>
    .ok () ⟨alike.text, alike.grammar, alike.events, Names.agreeOn_clear kind w.tables w'.tables⟩
  have write (text : Text) : Phase.Lockstep (Names.AgreeOn kind) ⊤
      (modify fun w => { w with text } : Phase Names Unit) (modify fun w => { w with text }) :=
    fun w w' alike => .ok () ⟨rfl, alike.grammar, alike.events, trivial⟩
  apply clear.bind
  intro _
  apply (lockstep_mapM_symbolOf kinds).bind
  intro text
  apply (write text).bind
  intro _
  exact Phase.Lockstep.pure _

theorem lockstep_replaceRuns : Phase.Lockstep ⊤ ⊤ replaceRuns replaceRuns := by
  have each (text : Text) :
      Phase.Lockstep ⊤ ⊤ (replace true text.runPieces) (replace true text.runPieces) :=
    lockstep_replace fun _ => Text.isBlock_of_mem_runPieces
  exact .ofText each

theorem lockstep_replacePairs : Phase.Lockstep ⊤ ⊤ replacePairs replacePairs := by
  have each (text : Text) :
      Phase.Lockstep ⊤ ⊤ (replace false ((Partition.ofText text).pairPieces text))
        (replace false ((Partition.ofText text).pairPieces text)) :=
    lockstep_replace fun _ => Partition.isBlock_of_mem_pairPieces
  exact .ofText each

theorem lockstep_method : method.Lockstep ⊤ method where
  name := rfl
  replaceRuns := lockstep_replaceRuns
  replacePairs := lockstep_replacePairs
  restore _ _ _ _ := rfl

theorem ofRun_compress (names names' : Names) (terminals : Nat) (text : Text) :
    Outcome.ofRun (method.compress names terminals text) =
      .ofRun (method.compress names' terminals text) := by
  apply lockstep_method.ofRun_compress
  have test : Phase.Lockstep (⊤ : Names → Names → Prop) ⊤ (method.prepare terminals)
      (method.prepare terminals) :=
    .check fun _ _ alike => by rw [alike.text]
  exact test _ _ ⟨rfl, rfl, rfl, trivial⟩

end FirstSeen

namespace DenseAlphabet

/-- Preparing a text replaces the mapping. -/
theorem lockstep_prepare (terminals : Nat) :
    Phase.Lockstep ⊤ Eq (prepare terminals) (prepare terminals) := by
  have test : Phase.Lockstep (⊤ : Array Symbol → Array Symbol → Prop) ⊤
      (Phase.check fun w => Alphabet.replaceLetters w.text terminals)
      (Phase.check fun w => Alphabet.replaceLetters w.text terminals) :=
    .check fun _ _ alike => by rw [alike.text]
  apply test.bind
  intro dense w w' alike
  exact .ok () ⟨rfl, alike.grammar, alike.events, rfl⟩

theorem ofRun_compress (mapping mapping' : Array Symbol) (terminals : Nat) (text : Text) :
    Outcome.ofRun (method.compress mapping terminals text) =
      .ofRun (method.compress mapping' terminals text) := by
  have same : method.Lockstep Eq method :=
    ⟨rfl, .refl _, .refl _, fun _ _ _ h => by rw [h]⟩
  exact same.ofRun_compress (lockstep_prepare terminals _ _ ⟨rfl, rfl, rfl, trivial⟩)

end DenseAlphabet

namespace Chunked

/-- The chunks of the text are tested in some order. -/
def methodIn (order : List Chunk → List Chunk) (parts : Nat) : Method Unit :=
  { method parts with
    prepare := fun alphabetSize => Phase.check fun w =>
      Alphabet.checkIn (order (Chunk.split w.text.toArray.size parts)) w.text.toArray alphabetSize }

/-- With at most one symbol outside the alphabet, the order of the tests does not show. -/
theorem ofRun_compress_methodIn {order : List Chunk → List Chunk}
    (perm : ∀ chunks, (order chunks).Perm chunks) (parts : Nat) {terminals : Nat} {text : Text}
    (one : ∀ a ∈ text, ∀ b ∈ text, terminals ≤ a.toNat → terminals ≤ b.toNat → a = b) :
    Outcome.ofRun ((methodIn order parts).compress () terminals text) =
      .ofRun ((method parts).compress () terminals text) := by
  have same : (methodIn order parts).Lockstep Eq (method parts) :=
    ⟨rfl, .refl _, .refl _, fun _ _ _ _ => rfl⟩
  have test :
      Alphabet.checkIn (order (Chunk.split text.toArray.size parts)) text.toArray terminals =
        Alphabet.checkIn (Chunk.split text.toArray.size parts) text.toArray terminals := by
    apply Alphabet.checkIn_perm (perm _)
    rwa [List.size_toArray, Chunk.flatMap_slice_split]
  apply same.ofRun_compress
  have prepared : (methodIn order parts).prepare terminals
      { text, tables := (), grammar := { terminals } } =
        (method parts).prepare terminals { text, tables := (), grammar := { terminals } } := by
    simp only [methodIn, method, prepare, Phase.check, test]
  rw [prepared]
  exact Phase.Lockstep.refl _ _ _ ⟨rfl, rfl, rfl, rfl⟩

end Chunked

/-! ### One text after the other -/

/-- A text to be compressed. Where its chunks are tested at the same time, they report in some
order. -/
structure Call where
  terminals : Nat
  text : Text
  order : List Chunk → List Chunk
  perm : ∀ chunks, (order chunks).Perm chunks

/-- At most one symbol of the text lies outside the alphabet, as often as it may occur. -/
def Call.OneOutside (call : Call) : Prop :=
  ∀ a ∈ call.text, ∀ b ∈ call.text, call.terminals ≤ a.toNat → call.terminals ≤ b.toNat → a = b

namespace Compressor

/-- The outcome of a call, and the compressor as it is afterwards. -/
def perform (call : Call) : Compressor → Outcome × Compressor
  | chunked parts =>
    conclude (fun _ => .chunked parts)
      ((Chunked.methodIn call.order parts).compress () call.terminals call.text)
  | c => c.compress call.terminals call.text

/-- The outcomes of all calls, one after the other. -/
def outcomes : List Call → Compressor → List Outcome
  | [], _ => []
  | call :: calls, c => (c.perform call).1 :: outcomes calls (c.perform call).2

/-- The compressor as it was before the first text. -/
def fresh : Compressor → Compressor
  | firstSeen _ => firstSeen ∅
  | dense _ => dense #[]
  | chunked parts => chunked parts

theorem fresh_start (s : Strategy) (parts : Nat) : (s.start parts).fresh = s.start parts := by
  cases s <;> rfl

theorem conclude_fst (next : σ → Compressor)
    (r : EStateM.Result Failure (Workspace σ) Grammar) : (conclude next r).1 = .ofRun r := by
  cases r <;> rfl

theorem fresh_conclude {c : Compressor} {next : σ → Compressor}
    (same : ∀ tables, (next tables).fresh = c) (r : EStateM.Result Failure (Workspace σ) Grammar) :
    (conclude next r).2.fresh = c := by
  cases r with
  | ok g w => exact same w.tables
  | error e w => exact same w.tables

/-- A call changes nothing but the tables. -/
theorem fresh_perform (c : Compressor) (call : Call) : (c.perform call).2.fresh = c.fresh := by
  cases c with
  | firstSeen names =>
      have same (names : FirstSeen.Names) : (firstSeen names).fresh = firstSeen ∅ := rfl
      exact fresh_conclude same _
  | dense mapping =>
      have same (mapping : Array Symbol) : (dense mapping).fresh = dense #[] := rfl
      exact fresh_conclude same _
  | chunked parts =>
      have same (_ : Unit) : (chunked parts).fresh = chunked parts := rfl
      exact fresh_conclude same _

/-- What was kept does not show in the outcome. -/
theorem perform_fst (c : Compressor) {call : Call} (one : c.strategy = .chunked → call.OneOutside) :
    (c.perform call).1 = (c.fresh.compress call.terminals call.text).1 := by
  cases c with
  | firstSeen names =>
      show (conclude _ _).1 = (conclude _ _).1
      rw [conclude_fst, conclude_fst]
      exact FirstSeen.ofRun_compress names ∅ call.terminals call.text
  | dense mapping =>
      show (conclude _ _).1 = (conclude _ _).1
      rw [conclude_fst, conclude_fst]
      exact DenseAlphabet.ofRun_compress mapping #[] call.terminals call.text
  | chunked parts =>
      show (conclude _ _).1 = (conclude _ _).1
      rw [conclude_fst, conclude_fst]
      exact Chunked.ofRun_compress_methodIn call.perm parts (one rfl)

theorem strategy_perform (c : Compressor) (call : Call) :
    (c.perform call).2.strategy = c.strategy := by
  have kept (c : Compressor) : c.fresh.strategy = c.strategy := by cases c <;> rfl
  rw [← kept, fresh_perform, kept]

/-- By induction on the calls that are left. -/
theorem outcomes_eq_map (c : Compressor) (calls : List Call)
    (one : c.strategy = .chunked → ∀ call ∈ calls, call.OneOutside) :
    c.outcomes calls =
      calls.map fun call => (c.fresh.compress call.terminals call.text).1 := by
  induction calls generalizing c with
  | nil => rfl
  | cons call calls ih =>
      have first := c.perform_fst fun chunks => one chunks call (by simp)
      have rest := ih (c.perform call).2 fun chunks later member =>
        one (c.strategy_perform call ▸ chunks) later (by simp [member])
      rw [outcomes, List.map_cons, first, rest, c.fresh_perform call]

/-- Texts that are compressed one after the other with one compressor, whether this succeeds or
fails at any point, have the outcomes that each has with a fresh compressor: the same grammar or
failure, the same text in the outcome, and the same reports. In chunks this holds as long as the
symbols outside the alphabet are the same one, in whatever order the chunks report it. -/
theorem outcomes_start (s : Strategy) (parts : Nat) (calls : List Call)
    (one : s = .chunked → ∀ call ∈ calls, call.OneOutside) :
    (s.start parts).outcomes calls =
      calls.map fun call => s.compress parts call.terminals call.text := by
  have strategy : (s.start parts).strategy = s := by cases s <;> rfl
  rw [outcomes_eq_map _ calls (strategy.symm ▸ one), fresh_start]
  rfl

/-- Of three texts, the first has no id left for its second run, and the second has symbols outside
the alphabet in two chunks. The chunks report from the last to the first. -/
def interrupted : List Call :=
  [⟨idSpace - 1, [0, 0, 1, 1], List.reverse, List.reverse_perm⟩,
    ⟨2, [0, 3, 1, 3], List.reverse, List.reverse_perm⟩,
    ⟨8, [7, 7, 7, 2], List.reverse, List.reverse_perm⟩]

theorem outcomes_start_interrupted :
    (∀ call ∈ interrupted, call.OneOutside) ∧
      (Strategy.chunked.start 3).outcomes interrupted =
        interrupted.map (fun call => Strategy.chunked.compress 3 call.terminals call.text) ∧
      (Strategy.firstSeen.start 3).outcomes interrupted =
        interrupted.map fun call => Strategy.firstSeen.compress 3 call.terminals call.text := by
  have one : ∀ call ∈ interrupted, call.OneOutside := by
    simp [interrupted, Call.OneOutside, idSpace]
  exact ⟨one, outcomes_start .chunked 3 interrupted fun _ => one,
    outcomes_start .firstSeen 3 interrupted fun _ => one⟩

end Compressor

end RunGrammar
