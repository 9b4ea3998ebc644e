import Mathlib
import RunGrammar.CommandLine.Job

/-!
# Hosts over a world

A job is followed on any host whose actions are functions on some world. Of the
world only the files are looked at: `held w name` is what reading a file of that
name gives. A host serves a job if its reads tell what is held and nothing but a
write changes it, and it accepts a name if what is written there is held there
afterwards. Both are all that the proofs know about a file system.

Actions are composed through `Succeeds`, which says that an action ends well and
what holds of its answer and of the world it leaves.
-/

namespace RunGrammar.CommandLine

/-- What reading gives, for each name of a file. -/
abbrev Contents := String → Except FileFault (List UInt8)

variable {W α β ε : Type} {held : W → Contents}

/-- The files are the same after the action. -/
def Keeps (held : W → Contents) (x : StateM W α) : Prop := ∀ w, held (x.run w).2 = held w

theorem Keeps.pure (a : α) : Keeps held (pure a) := fun _ => rfl

section Steps

variable {x : ExceptT ε (StateM W) α} {f : α → ExceptT ε (StateM W) β} {w w' : W}

/-- What follows a successful action goes on in the world that it leaves. -/
theorem run_bind_of_ok {a : α} (ended : x.run.run w = (.ok a, w')) :
    (x >>= f).run.run w = (f a).run.run w' := by
  rw [ExceptT.run_bind, StateT.run_bind, ended]
  rfl

theorem run_bind_of_error {e : ε} (ended : x.run.run w = (.error e, w')) :
    (x >>= f).run.run w = (.error e, w') := by
  rw [ExceptT.run_bind, StateT.run_bind, ended]
  rfl

end Steps

/-- The answer and the world after a successful action are as described. -/
def Succeeds (x : ExceptT ε (StateM W) α) (w : W) (Q : α → W → Prop) : Prop :=
  ∃ a w', x.run.run w = (.ok a, w') ∧ Q a w'

namespace Succeeds

variable {w : W} {Q : α → W → Prop}

theorem pure {a : α} (h : Q a w) :
    Succeeds (Pure.pure a : ExceptT ε (StateM W) α) w Q := ⟨a, w, rfl, h⟩

theorem bind {x : ExceptT ε (StateM W) α} {f : α → ExceptT ε (StateM W) β}
    {R : β → W → Prop} (first : Succeeds x w Q)
    (rest : ∀ a w', Q a w' → Succeeds (f a) w' R) : Succeeds (x >>= f) w R := by
  obtain ⟨a, w', ended, described⟩ := first
  obtain ⟨b, w'', ended', described'⟩ := rest a w' described
  exact ⟨b, w'', (run_bind_of_ok ended).trans ended', described'⟩

/-- A success is one whatever failures are called. -/
theorem adapt {δ : Type} {x : ExceptT ε (StateM W) α} (f : ε → δ) (ok : Succeeds x w Q) :
    Succeeds (x.adapt f) w Q := by
  obtain ⟨a, w', ended, described⟩ := ok
  refine ⟨a, w', ?_, described⟩
  have renamed : (x.adapt f).run.run w =
      ((x.run.run w).1.mapError f, (x.run.run w).2) := rfl
  rw [renamed, ended]
  rfl

/-- An action of the host always succeeds. -/
theorem lift {x : StateM W α} (h : Q (x.run w).1 (x.run w).2) :
    Succeeds (liftM x : ExceptT ε (StateM W) α) w Q := ⟨_, _, rfl, h⟩

theorem ofExcept {x : Except ε α} {a : α} (ok : x = .ok a) (h : Q a w) :
    Succeeds (MonadExcept.ofExcept x : ExceptT ε (StateM W) α) w Q := by
  subst ok
  exact pure h

/-- A step that only hands on what was worked out before. -/
theorem ofExcept_bind {x : Except ε α} {a : α} {f : α → ExceptT ε (StateM W) β}
    {R : β → W → Prop} (ok : x = .ok a) (rest : Succeeds (f a) w R) :
    Succeeds (MonadExcept.ofExcept x >>= f) w R := by
  subst ok
  have handed : Succeeds (Pure.pure a : ExceptT ε (StateM W) α) w fun b w' => b = a ∧ w' = w :=
    pure ⟨rfl, rfl⟩
  exact handed.bind fun _ _ same => same.1 ▸ same.2 ▸ rest

/-- An action that keeps the files can be passed over. -/
theorem keeps {x : StateM W α} (quiet : Keeps held x) :
    Succeeds (liftM x : ExceptT ε (StateM W) α) w fun _ w' => held w' = held w :=
  lift (quiet w)

/-- A step that is taken on a condition can be passed over if what follows succeeds in any world. -/
theorem ite_bind {c : Prop} [Decidable c] {x : ExceptT ε (StateM W) β}
    {y : ExceptT ε (StateM W) α} {P : β → W → Prop} (step : Succeeds x w P)
    (rest : ∀ w', Succeeds y w' Q) : Succeeds (if c then x >>= fun _ => y else y) w Q := by
  split
  · exact step.bind fun _ w' _ => rest w'
  · exact rest w

theorem forM {xs : List α} {f : α → StateM W Unit} (quiet : ∀ x, Keeps held (f x)) :
    Succeeds (xs.forM fun x => (liftM (f x) : ExceptT ε (StateM W) Unit)) w
      fun _ w' => held w' = held w := by
  induction xs generalizing w with
  | nil => exact pure rfl
  | cons x xs ih =>
      apply (keeps (quiet x)).bind
      intro _ w' same
      exact same ▸ ih

end Succeeds

namespace Host

variable {host : Host (StateM W)} {o : Options} {w : W} {name : String}

/-- Reading tells what is held, and whatever a job does but writing keeps the files. -/
structure Serves (host : Host (StateM W)) (held : W → Contents) : Prop where
  answer : ∀ name w, ((host.files.read name).run w).1 = held w name
  read : ∀ name, Keeps held (host.files.read name)
  print : ∀ text, Keeps held (host.print text)
  report : ∀ severity text, Keeps held (host.report severity text)
  clock : Keeps held host.clock

/-- So many threads can be started, and that keeps the files. -/
def Threads (host : Host (StateM W)) (held : W → Contents) (count : Nat) : Prop :=
  ∀ w, ((host.startThreads count).run w).1 = .ok () ∧
    held ((host.startThreads count).run w).2 = held w

/-- Writing to this name succeeds, and the file then holds what was written. -/
def Accepts (host : Host (StateM W)) (held : W → Contents) (name : String) : Prop :=
  ∀ bytes w, ((host.files.write name bytes).run w).1 = .ok () ∧
    held ((host.files.write name bytes).run w).2 name = .ok bytes

namespace Serves

variable (serves : host.Serves held)

include serves

theorem tell (severity : Severity) (text : String) : Keeps held (host.tell o severity text) := by
  unfold Host.tell
  split
  · exact serves.report severity text
  · exact .pure ()

/-- Passing reports on keeps the files. -/
theorem tellAll (events : List Event) :
    Succeeds (events.forM fun event =>
      (liftM (host.tell o event.severity event.message) : ExceptT Failure (StateM W) Unit)) w
      fun _ w' => held w' = held w :=
  .forM fun event => serves.tell event.severity event.message

/-- A file is read as what it holds. -/
theorem contents {bytes : List UInt8} (holds : held w name = .ok bytes) :
    Succeeds (host.files.contents name) w fun read w' => read = bytes ∧ held w' = held w := by
  have answered : Succeeds (liftM (host.files.read name) : ExceptT Failure (StateM W) _) w
      fun answer w' => answer = .ok bytes ∧ held w' = held w :=
    .lift ⟨(serves.answer name w).trans holds, serves.read name w⟩
  apply answered.bind
  rintro _ w' ⟨rfl, same⟩
  exact .pure ⟨rfl, same⟩

/-- A file that holds the bytes of a grammar is loaded as that grammar. -/
theorem load {f : Format} {bytes : List UInt8} {g : Grammar} (holds : held w name = .ok bytes)
    (decodes : f.decode bytes = .ok g) :
    Succeeds (host.files.load f name) w fun loaded w' => loaded = g ∧ held w' = held w := by
  apply (serves.contents holds).bind
  rintro _ w' ⟨rfl, same⟩
  exact .ofExcept decodes ⟨rfl, same⟩

end Serves

/-- A stored grammar is held as its bytes. -/
theorem Accepts.store (accepts : host.Accepts held name) (f : Format) (g : Grammar) :
    Succeeds (host.files.store f name g) w fun _ w' => held w' name = .ok (f.encode g) := by
  have ⟨ok, holds⟩ := accepts (f.encode g) w
  have answered : Succeeds
      (liftM (host.files.write name (f.encode g)) : ExceptT Failure (StateM W) _) w
      fun answer w' => answer = .ok () ∧ held w' name = .ok (f.encode g) := .lift ⟨ok, holds⟩
  apply answered.bind
  rintro _ w' ⟨rfl, holds⟩
  exact .pure holds

/-- Files as a table that is the whole world. Nothing is printed, and time stands still. -/
def table : Host (StateM Contents) where
  files.read name := return (← get) name
  files.write name bytes := do
    modify fun held => Function.update held name (.ok bytes)
    return .ok ()
  print _ := return
  printError _ := return
  report _ _ := return
  clock := return 0

theorem table_serves : table.Serves id where
  answer _ _ := rfl
  read _ _ := rfl
  print _ := .pure ()
  report _ _ := .pure ()
  clock := .pure 0

theorem table_threads (count : Nat) : table.Threads id count := fun _ => ⟨rfl, rfl⟩

theorem table_accepts (name : String) : table.Accepts id name := by
  intro bytes held
  refine ⟨rfl, ?_⟩
  show Function.update held name (.ok bytes) name = .ok bytes
  exact Function.update_self ..

end Host

end RunGrammar.CommandLine
