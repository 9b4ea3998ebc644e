import Mathlib
import RunGrammar.Text.Storage

/-!
# What there is room for

Where the room that was reserved is enough, a text is written to it as it is.
Where nothing was reserved, the room is always a power of two, so a text gets
into memory up to the largest power of two that is a possible room.
-/

namespace RunGrammar.Storage

variable {s : Storage} {t : Text} {n : Nat}

theorem maxRoom_eq : maxRoom = 2 ^ 61 - 1 := rfl

theorem push_of_lt (free : s.text.size < s.room) (c : Symbol) :
    s.push c = some { s with text := s.text.push c } := by
  simp [push, free]

theorem write_nil (s : Storage) : s.write [] = some s.text.toList := rfl

theorem write_cons (s : Storage) (c : Symbol) (t : Text) :
    s.write (c :: t) = s.push c >>= fun s => s.write t := by
  simp only [write, List.foldlM_cons, Option.bind_eq_bind, Option.bind_assoc]

/-- Room that is enough is never grown. -/
theorem write_of_le (enough : s.text.size + t.length ≤ s.room) :
    s.write t = some (s.text.toList ++ t) := by
  induction t generalizing s with
  | nil => rw [write_nil, List.append_nil]
  | cons c t ih =>
      rw [List.length_cons] at enough
      rw [write_cons, push_of_lt (by omega), Option.bind_eq_bind, Option.bind_some, ih]
      · simp
      · simp only [Array.size_push]
        omega

/-- A text is in memory as it is if room for at least that much is reserved and granted. -/
theorem withRoom_write (enough : t.length ≤ n) :
    (withRoom n >>= fun s => s.write t) = if n ≤ maxRoom then some t else none := by
  by_cases granted : n ≤ maxRoom
  · rw [withRoom, if_pos granted, if_pos granted, Option.bind_eq_bind, Option.bind_some,
      write_of_le (by simpa using enough)]
    rfl
  · rw [withRoom, if_neg granted, if_neg granted]
    rfl

/-! ### Doubling -/

/-- The largest text that is written without any room to begin with. -/
def maxGrown : Nat := 2 ^ 60

/-- Nothing was reserved, and all room was made by doubling. -/
structure Doubled (s : Storage) : Prop where
  inside : s.text.size ≤ s.room
  granted : s.room ≤ maxGrown
  power : s.room = 0 ∨ ∃ k, s.room = 4 * 2 ^ k

/-- A power of two is not between the bound and the largest room. -/
theorem power_le_or_lt (k : Nat) : 4 * 2 ^ k ≤ maxGrown ∨ maxRoom < 4 * 2 ^ k := by
  obtain small | large := Nat.lt_or_ge k 59
  · left
    have : 2 ^ k ≤ 2 ^ 58 := Nat.pow_le_pow_right (by decide) (by omega)
    have half : maxGrown = 4 * 2 ^ 58 := rfl
    omega
  · right
    have : 2 ^ 59 ≤ 2 ^ k := Nat.pow_le_pow_right (by decide) large
    have room : maxRoom < 4 * 2 ^ 59 := by decide
    omega

namespace Doubled

/-- Where the room is used up, the next room is the next power of two. -/
theorem next (doubled : s.Doubled) : ∃ k, max (2 * s.room) 4 = 4 * 2 ^ k := by
  obtain zero | ⟨k, room⟩ := doubled.power
  · exact ⟨0, by simp [zero]⟩
  · refine ⟨k + 1, ?_⟩
    have : 0 < 2 ^ k := Nat.two_pow_pos k
    rw [Nat.pow_succ]
    omega

/-- Below the bound there is room for one more symbol, or it can be made. -/
theorem push_of_lt (doubled : s.Doubled) (few : s.text.size < maxGrown) (c : Symbol) :
    ∃ room, s.push c = some ⟨s.text.push c, room⟩ ∧ Doubled ⟨s.text.push c, room⟩ := by
  have ⟨inside, granted, power⟩ := doubled
  by_cases free : s.text.size < s.room
  · refine ⟨s.room, Storage.push_of_lt free c, ?_, granted, power⟩
    rw [Array.size_push]
    exact free
  · obtain ⟨k, next⟩ := doubled.next
    have half : 4 ≤ maxGrown ∧ maxRoom = 2 * maxGrown - 1 := by decide
    have small : 4 * 2 ^ k ≤ maxGrown := by
      obtain small | large := power_le_or_lt k
      · exact small
      · omega
    have possible : 4 * 2 ^ k ≤ maxRoom := by omega
    refine ⟨4 * 2 ^ k, by simp [push, free, grow, next, possible], ?_, small, .inr ⟨k, rfl⟩⟩
    show (s.text.push c).size ≤ 4 * 2 ^ k
    rw [Array.size_push]
    omega

/-- At the bound the next room is too large. -/
theorem push_of_le (doubled : s.Doubled) (full : maxGrown ≤ s.text.size) (c : Symbol) :
    s.push c = none := by
  have ⟨inside, granted, power⟩ := doubled
  have free : ¬ s.text.size < s.room := by omega
  have large : ¬ max (2 * s.room) 4 ≤ maxRoom := by
    have half : maxRoom = 2 * maxGrown - 1 ∧ 0 < maxGrown := by decide
    omega
  simp [push, free, grow, large]

theorem write (doubled : s.Doubled) (t : Text) :
    s.write t =
      if s.text.size + t.length ≤ maxGrown then some (s.text.toList ++ t) else none := by
  induction t generalizing s with
  | nil =>
      have ⟨inside, granted, _⟩ := doubled
      rw [write_nil, if_pos (by simpa using inside.trans granted), List.append_nil]
  | cons c t ih =>
      rw [write_cons, List.length_cons]
      obtain few | full := Nat.lt_or_ge s.text.size maxGrown
      · obtain ⟨room, pushed, doubled'⟩ := doubled.push_of_lt few c
        rw [pushed, Option.bind_eq_bind, Option.bind_some, ih doubled', Array.size_push,
          Array.toList_push, List.append_assoc, List.singleton_append, Nat.add_right_comm,
          Nat.add_assoc]
      · rw [doubled.push_of_le full, if_neg (by omega)]
        rfl

end Doubled

end RunGrammar.Storage
