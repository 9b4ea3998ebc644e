import Mathlib
import RunGrammar.Failure

/-!
# Steps that may fail

What a chain of steps answers, in terms of its parts. A chain succeeds exactly
when every step of it does; proofs about checks and constructors use these
equivalences and do not unfold the monad again. And it fails for the reasons of
its steps only.
-/

namespace RunGrammar.Failing

variable {α β : Type}

theorem bind_eq_ok_iff {x : Except Failure α} {f : α → Except Failure β} {b : β} :
    x >>= f = .ok b ↔ ∃ a, x = .ok a ∧ f a = .ok b := by
  cases x with
  | ok a =>
      constructor
      · intro h
        exact ⟨a, rfl, h⟩
      · rintro ⟨_, same, h⟩
        cases same
        exact h
  | error e =>
      constructor
      · intro h
        cases h
      · rintro ⟨_, h, _⟩
        cases h

@[simp] theorem ok_bind (a : α) (f : α → Except Failure β) :
    (Except.ok a : Except Failure α) >>= f = f a := rfl

@[simp] theorem error_bind (e : Failure) (f : α → Except Failure β) :
    (Except.error e : Except Failure α) >>= f = .error e := rfl

@[simp] theorem throw_eq (e : Failure) : (throw e : Except Failure α) = .error e := rfl

@[simp] theorem pure_eq (a : α) : (pure a : Except Failure α) = .ok a := rfl

section State

variable {σ : Type} {step : EStateM Failure σ α} {next : α → EStateM Failure σ β} {s s' : σ}

/-- A step that is done hands on its value and its state. -/
theorem bind_of_ok {a : α} (done : step s = .ok a s') : (step >>= next) s = next a s' := by
  change EStateM.bind step next s = next a s'
  simp only [EStateM.bind, done]

/-- No step is taken after one that failed. -/
theorem bind_of_error {e : Failure} (failed : step s = .error e s') :
    (step >>= next) s = .error e s' := by
  change EStateM.bind step next s = .error e s'
  simp only [EStateM.bind, failed]

end State

theorem forM_cons (f : α → Except Failure Unit) (x : α) (xs : List α) :
    (x :: xs).forM f = f x >>= fun _ => xs.forM f := rfl

theorem forM_map {γ : Type} (f : γ → α) (g : α → Except Failure Unit) (xs : List γ) :
    (xs.map f).forM g = xs.forM fun x => g (f x) := by
  induction xs with
  | nil => rfl
  | cons x xs ih => rw [List.map_cons, forM_cons, forM_cons, ih]

theorem forM_eq_ok_iff {f : α → Except Failure Unit} {xs : List α} :
    xs.forM f = .ok () ↔ ∀ x ∈ xs, f x = .ok () := by
  induction xs with
  | nil => simp [List.forM]
  | cons x xs ih =>
      rw [forM_cons, bind_eq_ok_iff, List.forall_mem_cons, ← ih]
      constructor
      · rintro ⟨_, first, rest⟩
        exact ⟨first, rest⟩
      · rintro ⟨first, rest⟩
        exact ⟨(), first, rest⟩

/-! ### Reasons -/

variable {σ : Type} {P : Failure → Prop}

/-- A step fails for reasons of this kind only. -/
def Blames (P : Failure → Prop) (x : Except Failure α) : Prop := ∀ e, x = .error e → P e

namespace Blames

theorem ok (a : α) : Blames P (.ok a : Except Failure α) := by
  rintro e ⟨⟩

theorem error {e : Failure} (h : P e) : Blames P (.error e : Except Failure α) := by
  rintro _ ⟨⟩
  exact h

theorem bind {x : Except Failure α} {f : α → Except Failure β} (first : Blames P x)
    (rest : ∀ a, x = .ok a → Blames P (f a)) : Blames P (x >>= f) := by
  cases x with
  | ok a => exact rest a rfl
  | error e => exact error (first e rfl)

theorem foldlM {xs : List α} {f : σ → α → Except Failure σ} (each : ∀ s x, Blames P (f s x))
    (s : σ) : Blames P (xs.foldlM f s) := by
  induction xs generalizing s with
  | nil => exact ok s
  | cons x xs ih =>
      rw [List.foldlM_cons]
      exact (each s x).bind fun s' _ => ih s'

theorem forM {xs : List α} {f : α → Except Failure Unit} (each : ∀ x, Blames P (f x)) :
    Blames P (xs.forM f) := by
  induction xs with
  | nil => exact ok ()
  | cons x xs ih => exact (each x).bind fun _ _ => ih

end Blames

end RunGrammar.Failing
