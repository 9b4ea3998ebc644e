import Mathlib
import RunGrammar.Bits.Basic
import RunGrammar.Proofs.Failing

/-!
# Arithmetic that can be refused

The library counts with natural numbers, where a difference stops at zero, a
remainder by zero is the number itself, and a sum is never too large. Words are
less forgiving. Here every operation answers `none` where words have no answer,
so a computation that is written with these operations and gives `some` has met
no such place on its way.

Some computations may fail anyway. A `Guarded` one is refused, or it is answered
with a failure or a result. It does what an unguarded one does, and is never
refused, if it equals `Guarded.of` the latter.
-/

namespace RunGrammar.Checked

/-- The sum of two words, if it is a word. -/
def add (x y : Nat) : Option Nat := if x + y < wordSpace then some (x + y) else none

/-- The product of two words, if it is a word. -/
def mul (x y : Nat) : Option Nat := if x * y < wordSpace then some (x * y) else none

/-- The difference, if there is one. -/
def sub (x y : Nat) : Option Nat := if y ≤ x then some (x - y) else none

/-- The quotient by a number other than zero. -/
def div (x y : Nat) : Option Nat := if 0 < y then some (x / y) else none

/-- The remainder by a number other than zero. -/
def mod (x y : Nat) : Option Nat := if 0 < y then some (x % y) else none

/-- The word moved to the left, if the distance is less than a word and no bits are lost. -/
def shiftLeft (x n : Nat) : Option Nat :=
  if n < 64 ∧ x <<< n < wordSpace then some (x <<< n) else none

/-- A count, if it does not go past this bound. -/
def upTo (bound x : Nat) : Option Nat := if x ≤ bound then some x else none

/-- A number, if it has 64 bits in two's complement. -/
def signed (value : Int) : Option Int := if Bits.isSignedWord value then some value else none

variable {x y : Nat}

theorem add_of_lt (h : x + y < wordSpace) : add x y = some (x + y) := if_pos h

theorem mul_of_lt (h : x * y < wordSpace) : mul x y = some (x * y) := if_pos h

theorem sub_of_le (h : y ≤ x) : sub x y = some (x - y) := if_pos h

theorem div_of_pos (h : 0 < y) : div x y = some (x / y) := if_pos h

theorem mod_of_pos (h : 0 < y) : mod x y = some (x % y) := if_pos h

theorem shiftLeft_of_lt {n : Nat} (distance : n < 64) (kept : x * 2 ^ n < wordSpace) :
    shiftLeft x n = some (x <<< n) :=
  if_pos ⟨distance, by rwa [Nat.shiftLeft_eq]⟩

/-- The word with ones at so many places, as one less than the next power of two. -/
theorem ones_of_le {count : Nat} (few : count ≤ 32) :
    shiftLeft 1 count = some (1 <<< count) ∧ sub (1 <<< count) 1 = some (1 <<< count - 1) := by
  have scale : 1 * 2 ^ count < wordSpace := by
    have : 2 ^ count ≤ 2 ^ 32 := Nat.pow_le_pow_right (by decide) few
    have space : wordSpace = 2 ^ 32 * 2 ^ 32 := rfl
    omega
  exact ⟨shiftLeft_of_lt (Nat.lt_of_le_of_lt few (by decide)) scale,
    sub_of_le (Nat.one_shiftLeft count ▸ Nat.two_pow_pos count)⟩

theorem signed_of_fits {value : Int} (h : Bits.isSignedWord value = true) :
    signed value = some value := if_pos h

theorem upTo_of_le {bound : Nat} (h : x ≤ bound) : upTo bound x = some x := if_pos h

end RunGrammar.Checked

namespace RunGrammar

/-- Steps that may fail, and that may also be refused. -/
abbrev Guarded := ExceptT Failure Option

namespace Guarded

variable {α β : Type}

/-- An answer that no step before it refused. -/
def of (x : Except Failure α) : Guarded α := some x

/-- A value, unless it is refused. -/
def check (x : Option α) : Guarded α := x.map .ok

/-- Goes on if the condition holds and is refused otherwise. -/
def demand (p : Prop) [Decidable p] : Guarded Unit := check (if p then some () else none)

@[simp] theorem of_ok_bind (a : α) (f : α → Guarded β) : of (.ok a) >>= f = f a := rfl

@[simp] theorem of_error_bind (e : Failure) (f : α → Guarded β) :
    of (.error e : Except Failure α) >>= f = of (.error e) := rfl

@[simp] theorem pure_eq (a : α) : (pure a : Guarded α) = of (.ok a) := rfl

@[simp] theorem check_some (a : α) : check (some a) = of (.ok a) := rfl

@[simp] theorem demand_of_true {p : Prop} [Decidable p] (h : p) : demand p = of (.ok ()) := by
  simp [demand, h]

/-- If every step is answered, so is the chain. -/
theorem bind_eq_of {x : Guarded α} {y : Except Failure α} {f : α → Guarded β}
    {g : α → Except Failure β} (first : x = of y) (rest : ∀ a, y = .ok a → f a = of (g a)) :
    x >>= f = of (y >>= g) := by
  subst first
  cases y with
  | ok a => exact rest a rfl
  | error e => rfl

/-- Steps over a list are answered if each of them is, from every state that can be reached. -/
theorem foldlM_eq_of {σ : Type} (Inv : σ → Prop) {xs : List α} {f : σ → α → Guarded σ}
    {g : σ → α → Except Failure σ} (step : ∀ x ∈ xs, ∀ s, Inv s → f s x = of (g s x))
    (keeps : ∀ x ∈ xs, ∀ s s', Inv s → g s x = .ok s' → Inv s') {s : σ} (inv : Inv s) :
    xs.foldlM f s = of (xs.foldlM g s) := by
  induction xs generalizing s with
  | nil => rfl
  | cons x xs ih =>
      rw [List.foldlM_cons, List.foldlM_cons]
      apply bind_eq_of (step x (by simp) s inv)
      intro s' done
      exact ih (fun y hy => step y (by simp [hy])) (fun y hy => keeps y (by simp [hy]))
        (keeps x (by simp) s s' inv done)

/-- Steps over a list that cannot fail. -/
theorem foldlM_eq_of_ok {σ : Type} (Inv : σ → Prop) {xs : List α} {f : σ → α → Guarded σ}
    {g : σ → α → σ} (step : ∀ x ∈ xs, ∀ s, Inv s → f s x = of (.ok (g s x)))
    (keeps : ∀ x ∈ xs, ∀ s, Inv s → Inv (g s x)) {s : σ} (inv : Inv s) :
    xs.foldlM f s = of (.ok (xs.foldl g s)) := by
  induction xs generalizing s with
  | nil => rfl
  | cons x xs ih =>
      rw [List.foldlM_cons, List.foldl_cons, step x (by simp) s inv, of_ok_bind]
      exact ih (fun y hy => step y (by simp [hy])) (fun y hy => keeps y (by simp [hy]))
        (keeps x (by simp) s inv)

theorem forM_eq_of {xs : List α} {f : α → Guarded Unit} {g : α → Except Failure Unit}
    (step : ∀ x ∈ xs, f x = of (g x)) : xs.forM f = of (xs.forM g) := by
  induction xs with
  | nil => rfl
  | cons x xs ih =>
      exact bind_eq_of (step x (by simp)) fun _ _ => ih fun y hy => step y (by simp [hy])

end Guarded

end RunGrammar
