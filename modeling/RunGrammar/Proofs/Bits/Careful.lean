import Mathlib
import RunGrammar.Proofs.Bits.Resuming

/-!
# Reading up to the first failure

A decoder stops at the first failure, and what the buffer is then no longer
matters. So its actions are those that read on, with the buffer that a failure
leaves forgotten. They are answered as the actions on bits are: with the same value
or the same failure, and they are never refused.
-/

namespace RunGrammar

variable {α β : Type}

/-- Guarded actions that take bits out of a buffer. -/
abbrev Careful := StateT Buffer Guarded

/-- Forgets the buffer that a failure leaves. -/
def Resuming.careful (x : Resuming α) : Careful α := fun b =>
  (x b).map fun (answer, b') => answer.map fun a => (a, b')

section

variable {x : Resuming α} {b b' : Buffer}

theorem Resuming.careful_of_ok {a : α} (h : x b = some (.ok a, b')) :
    x.careful b = .of (.ok (a, b')) := by
  rw [careful, h]
  rfl

theorem Resuming.careful_of_error {e : Failure} (h : x b = some (.error e, b')) :
    x.careful b = .of (.error e) := by
  rw [careful, h]
  rfl

end

namespace Careful

def position : Careful Nat := Resuming.position.careful

def bits (count : Nat) : Careful Nat := (Resuming.bits count).careful

def word (count : Nat) : Careful Nat := (Resuming.word count).careful

def bit : Careful Bool := Resuming.bit.careful

def gammaFromZero : Careful Nat := Resuming.gammaFromZero.careful

def signed : Careful Int := Resuming.signed.careful

def field (shape : Shape) : Careful Field := (Resuming.field shape).careful

/-- Repeats an action and collects the results. -/
def collect (careful : Careful α) : (count : Nat) → (done : Array α) → Careful (Array α)
  | 0, done => return done
  | count + 1, done => do
    let a ← careful
    collect careful count (done.push a)

/-- Runs an action on some bytes; what it leaves over does not matter. -/
def run (careful : Careful α) (bytes : List UInt8) : Guarded α := do
  let (a, _) ← careful (.ofBytes bytes)
  return a

/-- From every place in some bytes, the guarded action is answered as the one on bits is, and leads
to the same place unless it fails. All values are like this. -/
def Follows (careful : Careful α) (read : Read α) (post : α → Prop) : Prop :=
  ∀ (bytes : List UInt8) (b : Buffer), b.Within bytes →
    (∃ a b', careful b = .of (.ok (a, b')) ∧ read b.view = .ok a b'.view ∧ b'.Within bytes ∧
      post a) ∨
    ∃ e r, careful b = .of (.error e) ∧ read b.view = .error e r

namespace Follows

variable {careful : Careful α} {read : Read α} {P P' : α → Prop} {Q : β → Prop}

/-- Forgetting what a failure leaves keeps the answers. -/
theorem of_refines {x : Resuming α} (h : x.Refines read P) : Follows x.careful read P := by
  intro bytes b w
  obtain ⟨a, b', taken, same, w', post⟩ | ⟨e, b', failed, same, _⟩ := h bytes b w
  · exact .inl ⟨a, b', Resuming.careful_of_ok taken, same, w', post⟩
  · exact .inr ⟨e, b'.view, Resuming.careful_of_error failed, same⟩

theorem mono (h : Follows careful read P) (weaker : ∀ a, P a → P' a) : Follows careful read P' := by
  intro bytes b w
  obtain ⟨a, b', taken, same, w', post⟩ | failure := h bytes b w
  · exact .inl ⟨a, b', taken, same, w', weaker a post⟩
  · exact .inr failure

theorem pure {a : α} (post : P a) : Follows (Pure.pure a) (Pure.pure a) P :=
  fun _ b w => .inl ⟨a, b, rfl, rfl, w, post⟩

theorem throw (e : Failure) : Follows (MonadExcept.throw e) (MonadExcept.throw e) P :=
  fun _ b _ => .inr ⟨e, b.view, rfl, rfl⟩

theorem bind {f : α → Careful β} {g : α → Read β} (first : Follows careful read P)
    (rest : ∀ a, P a → Follows (f a) (g a) Q) : Follows (careful >>= f) (read >>= g) Q := by
  intro bytes b w
  have step : (careful >>= f) b = careful b >>= fun x => f x.1 x.2 := rfl
  rw [step]
  obtain ⟨a, b', taken, same, w', post⟩ | ⟨e, r, failed, same⟩ := first bytes b w
  · rw [taken, Failing.bind_of_ok same]
    exact rest a post bytes b' w'
  · rw [failed, Failing.bind_of_error same]
    exact .inr ⟨e, r, rfl, rfl⟩

/-- A guard that is passed has no counterpart. -/
theorem guard_bind {x : Guarded α} {a : α} {f : α → Careful β} {read : Read β}
    (passed : x = .of (.ok a)) (rest : Follows (f a) read Q) :
    Follows ((liftM x : Careful α) >>= f) read Q := by
  subst passed
  exact rest

/-- A number within its bounds has no counterpart, either. -/
theorem check_bind {o : Option α} {a : α} {f : α → Careful β} {read : Read β}
    (passed : o = some a) (rest : Follows (f a) read Q) :
    Follows ((liftM (Guarded.check o) : Careful α) >>= f) read Q := by
  subst passed
  exact rest

/-- Guarded steps that take no bits. -/
theorem guarded {x : Guarded α} {y : Except Failure α} (same : x = .of y)
    (post : ∀ a, y = .ok a → P a) : Follows (liftM x) (Read.ofExcept y) P := by
  subst same
  cases y with
  | ok a => exact pure (post a rfl)
  | error e => exact throw e

theorem position : Follows Careful.position Read.position fun _ => True :=
  of_refines .position

theorem bits {count : Nat} (few : count ≤ 32) :
    Follows (Careful.bits count) (Read.bits count) (· < 2 ^ count) :=
  of_refines (.bits few)

theorem word {count : Nat} (few : count ≤ 64) :
    Follows (Careful.word count) (Read.word count) (· < 2 ^ count) :=
  of_refines (.word few)

theorem bit : Follows Careful.bit Read.bit fun _ => True := of_refines .bit

theorem gammaFromZero :
    Follows Careful.gammaFromZero Read.gammaFromZero (· < wordSpace - 1) :=
  of_refines .gammaFromZero

theorem signed : Follows Careful.signed Read.signed (Bits.isSignedWord · = true) :=
  of_refines .signed

theorem field {shape : Shape} (readable : shape.Readable) :
    Follows (Careful.field shape) (Field.read shape) fun _ => True :=
  of_refines (.field readable)

theorem collect {count : Nat} {done : Array α} (each : Follows careful read P) :
    Follows (Careful.collect careful count done) (Read.collect read count done)
      fun all => all.size = done.size + count := by
  induction count generalizing done with
  | zero => exact pure rfl
  | succ count ih =>
      apply each.bind
      intro a _
      exact ih.mono fun all h => by simpa [Nat.add_assoc, Nat.add_comm 1] using h

/-- On whole strings of bytes: the guarded run is answered as the unguarded one is, and what is
returned goes with what the first action returned. -/
theorem run_bind {f : α → Careful β} {g : α → Read β} {R : α → β → Prop}
    (first : Follows careful read P) (rest : ∀ a, P a → Follows (f a) (g a) (R a))
    (bytes : List UInt8) :
    (careful >>= f).run bytes = .of ((read >>= g).run bytes) ∧
      ∀ b, (read >>= g).run bytes = .ok b →
        ∃ a r, read (.ofBytes bytes) = .ok a r ∧ R a b := by
  have view := Buffer.view_ofBytes bytes
  have step : (careful >>= f).run bytes =
      (careful (.ofBytes bytes) >>= fun x => f x.1 x.2) >>= fun x => Pure.pure x.1 := rfl
  rw [step]
  obtain ⟨a, s, taken, same, within, post⟩ | ⟨e, r, failed, same⟩ :=
    first bytes _ (Buffer.within_ofBytes bytes)
  · rw [view] at same
    rw [taken, Guarded.of_ok_bind]
    obtain ⟨b, s', taken', same', _, post'⟩ | ⟨e, r, failed, same'⟩ :=
      rest a post bytes s within
    · have done := Read.run_of_ok ((Failing.bind_of_ok same).trans same')
      rw [done, taken']
      refine ⟨rfl, ?_⟩
      rintro b' ⟨⟩
      exact ⟨a, s.view, same, post'⟩
    · have stopped := Read.run_of_error ((Failing.bind_of_ok same).trans same')
      rw [stopped, failed]
      refine ⟨rfl, ?_⟩
      rintro b ⟨⟩
  · rw [view] at same
    have stopped : (read >>= g).run bytes = .error e :=
      Read.run_of_error (Failing.bind_of_error same)
    rw [stopped, failed]
    refine ⟨rfl, ?_⟩
    rintro b ⟨⟩

theorem run_eq (h : Follows careful read P) (bytes : List UInt8) :
    careful.run bytes = .of (read.run bytes) := by
  have last (a : α) (_ : P a) :
      Follows (Pure.pure a : Careful α) (Pure.pure a : Read α) fun _ => True :=
    pure trivial
  simpa using (h.run_bind (R := fun _ _ => True) last bytes).1

end Follows

end Careful

end RunGrammar
