import Mathlib

/-!
# Ranges of joined and repeated lists

A range of a list is what `drop` and `take` leave of it. A range of two lists,
one behind the other, is made of a range of each. A range of many copies of one
list begins inside a copy, goes on with whole copies, and stops inside a copy.

The point where the first list ends, or the size of a copy, may be given too
small, provided that the range ends before it. That is how much is known of a
length that has been cut off.
-/

namespace RunGrammar.Ranges

variable {α : Type} {s t : List α} {left copy i n m : Nat}

/-- A range that starts in the first list. -/
theorem take_drop_append_of_lt (known : left = s.length ∨ i + n ≤ left ∧ left ≤ s.length)
    (early : i < left) :
    ((s ++ t).drop i).take n =
      (s.drop i).take (min n (left - i)) ++ (t.drop 0).take (n - min n (left - i)) := by
  have inside : i ≤ s.length := by omega
  rw [List.drop_append_of_le_length inside, List.take_append, List.length_drop, List.drop_zero]
  obtain rfl | ⟨covers, below⟩ := known
  · rw [← List.length_drop, ← List.take_eq_take_min]
    congr 2
    omega
  · have all : min n (left - i) = n := by omega
    have nothing : n - (s.length - i) = 0 := by omega
    rw [all, nothing, Nat.sub_self]

/-- A range that starts in the second list. -/
theorem take_drop_append_of_le (known : left = s.length ∨ i + n ≤ left ∧ left ≤ s.length)
    (late : left ≤ i) (asked : n ≠ 0) :
    ((s ++ t).drop i).take n = (t.drop (i - left)).take n := by
  obtain rfl | ⟨covers, _⟩ := known
  · rw [List.drop_append, List.drop_eq_nil_of_le late, List.nil_append]
  · omega

theorem drop_flatten_replicate (s : List α) (whole rest offset : Nat) :
    (List.replicate (whole + rest) s).flatten.drop (s.length * whole + offset) =
      (List.replicate rest s).flatten.drop offset := by
  have front : (List.replicate whole s).flatten.length = s.length * whole := by
    simp [Nat.mul_comm]
  rw [List.replicate_add, List.flatten_append, ← front, List.drop_length_add_append]

theorem take_flatten_replicate (s : List α) (inside : n ≤ s.length * m) :
    (List.replicate m s).flatten.take n =
      (List.replicate (n / s.length) s).flatten ++ s.take (n % s.length) := by
  obtain ⟨k, rfl⟩ : ∃ k, m = n / s.length + k :=
    Nat.exists_eq_add_of_le (Nat.div_le_of_le_mul inside)
  have front : (List.replicate (n / s.length) s).flatten.length = s.length * (n / s.length) := by
    simp [Nat.mul_comm]
  have split : n = (List.replicate (n / s.length) s).flatten.length + n % s.length := by
    rw [front, Nat.div_add_mod]
  have back : ((List.replicate k s).flatten).take (n % s.length) = s.take (n % s.length) := by
    cases k with
    | zero =>
        have nothing : n % s.length = 0 := by
          rw [Nat.add_zero] at inside
          omega
        simp [nothing]
    | succ k =>
        have short : n % s.length ≤ s.length := by
          cases s with
          | nil => simpa using inside
          | cons c s => exact (Nat.mod_lt n (Nat.succ_pos _)).le
        rw [List.replicate_succ, List.flatten_cons, List.take_append_of_le_length short]
  rw [List.replicate_add, List.flatten_append]
  nth_rewrite 1 [split]
  rw [List.take_length_add_append, back]

/-- A range of copies: the rest of one, then whole ones, then the front of one. -/
theorem take_drop_flatten_replicate
    (known : copy = s.length ∨ i + n ≤ copy ∧ copy ≤ s.length) (pos : 0 < copy) (asked : n ≠ 0)
    (inside : i + n ≤ s.length * m) {head rest : Nat} (first : min n (copy - i % copy) = head)
    (last : n - head = rest) :
    ((List.replicate m s).flatten.drop i).take n =
      (s.drop (i % copy)).take head ++
        (List.replicate (rest / copy) ((s.drop 0).take copy)).flatten ++
        (s.drop 0).take (rest % copy) := by
  have split := Nat.div_add_mod i copy
  obtain rfl | ⟨covers, below⟩ := known
  · -- The range starts in copy `i / s.length`; that copy and `k` more are left.
    have started : i / s.length < m := Nat.div_lt_of_lt_mul (by omega)
    obtain ⟨k, rfl⟩ : ∃ k, m = i / s.length + (k + 1) := ⟨m - i / s.length - 1, by omega⟩
    have offset := Nat.mod_lt i pos
    have remaining : rest ≤ s.length * k := by
      rw [Nat.mul_add, Nat.mul_add, Nat.mul_one] at inside
      omega
    subst first last
    nth_rewrite 1 [← split]
    rw [drop_flatten_replicate, List.replicate_succ, List.flatten_cons,
      take_drop_append_of_lt (.inl rfl) offset, List.drop_zero,
      take_flatten_replicate s remaining, List.append_assoc]
    simp
  · -- The range lies in the first copy.
    have early : i < copy := by omega
    have some : 0 < m := Nat.pos_of_mul_pos_left (by omega : 0 < s.length * m)
    obtain ⟨k, rfl⟩ : ∃ k, m = k + 1 := ⟨m - 1, by omega⟩
    rw [Nat.mod_eq_of_lt early] at first ⊢
    have all : head = n := by omega
    have nothing : rest = 0 := by omega
    rw [List.replicate_succ, List.flatten_cons,
      take_drop_append_of_lt (.inr ⟨covers, below⟩) early]
    simp [all, nothing, first]

end RunGrammar.Ranges
