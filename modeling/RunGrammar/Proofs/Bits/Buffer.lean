import Mathlib
import RunGrammar.Format.Header
import RunGrammar.Proofs.Bits.Reading
import RunGrammar.Proofs.Checked

/-!
# A buffer of bits

Bytes are not taken apart into a list of bits to be read. They are taken into a
word of 64 bits, whole bytes at the upper end, and bits leave it at the lower
end. Every step on words is guarded here: shifts by less than the width of a
word that lose no bits, differences that are not negative, and counts of bits
that stay within the number of bits there are.

A `Buffer` shows the same bits as a `BitReader`. It is always at some place in
the bits of its bytes, and no step from one place to another is refused.
-/

namespace RunGrammar

/-- Some bytes that are being read. -/
structure Buffer where
  data : Array UInt8
  /-- The first byte that was not taken in yet. -/
  next : Nat := 0
  /-- The bits that were taken in and not taken out yet, and how many they are. -/
  word : Nat := 0
  held : Nat := 0
  /-- How many bits were taken out. -/
  taken : Nat := 0

namespace Buffer

/-- A buffer before the first of some bytes. -/
def ofBytes (bytes : List UInt8) : Buffer := { data := bytes.toArray }

/-- The number of bits of all bytes. -/
def size (b : Buffer) : Nat := 8 * b.data.size

/-- Takes in the next byte, moved behind the bits that are held. -/
def load (b : Buffer) (moved : Nat) : Buffer :=
  { b with word := b.word ||| moved, held := b.held + 8, next := b.next + 1 }

/-- Takes in bytes until so many bits are held or no byte is left. The bits that are held are
counted in a byte. -/
def refill (count : Nat) (b : Buffer) : Option Buffer :=
  if b.held < count then
    match b.data[b.next]? with
    | none => return b
    | some byte => do
      let moved ← Checked.shiftLeft byte.toNat b.held
      let _ ← Checked.upTo 255 (b.held + 8)
      refill count (b.load moved)
  else return b
termination_by count - b.held
decreasing_by
  simp only [load]
  omega

/-- The buffer without its lowest bits. -/
def drop (count : Nat) (b : Buffer) : Option Buffer := do
  let held ← Checked.sub b.held count
  let taken ← Checked.upTo b.size (b.taken + count)
  return { b with word := b.word >>> count, held, taken }

/-- Takes out bits that are held. -/
def take (count : Nat) (b : Buffer) : Option (Nat × Buffer) := do
  let mask ← Checked.sub (← Checked.shiftLeft 1 count) 1
  return (b.word &&& mask, ← b.drop count)

/-- How many bits are left. -/
def remaining (b : Buffer) : Option Nat := do
  let bytes ← Checked.sub b.data.size b.next
  Checked.upTo b.size (b.held + 8 * bytes)

/-- The bits that are left, as a reader of bits has them. -/
def view (b : Buffer) : BitReader :=
  ⟨b.taken, Bits.ofNat b.held b.word ++ Bits.unpack (b.data.toList.drop b.next)⟩

/-- No bit is lost or made up. -/
structure Balanced (b : Buffer) : Prop where
  word_lt : b.word < 2 ^ b.held
  next_le : b.next ≤ b.data.size
  balance : b.taken + b.held + 8 * (b.data.size - b.next) = b.size

/-- The buffer is at some place in these bytes. -/
structure Within (bytes : List UInt8) (b : Buffer) : Prop extends b.Balanced where
  toList_data : b.data.toList = bytes
  held_lt : b.held < 40
  rest_view : b.view.rest = (Bits.unpack bytes).drop b.taken

variable {bytes : List UInt8} {b : Buffer} {count : Nat}

theorem Balanced.load (bal : b.Balanced) {byte : UInt8} (found : b.data[b.next]? = some byte) :
    (b.load (byte.toNat <<< b.held)).Balanced where
  word_lt := Bits.or_shiftLeft_lt bal.word_lt byte.toNat_lt
  next_le := (Array.getElem?_eq_some_iff.mp found).1
  balance := by
    have inside := (Array.getElem?_eq_some_iff.mp found).1
    have balance := bal.balance
    simp only [size, Buffer.load] at balance ⊢
    omega

theorem Balanced.view_load (bal : b.Balanced) {byte : UInt8}
    (found : b.data[b.next]? = some byte) : (b.load (byte.toNat <<< b.held)).view = b.view := by
  obtain ⟨inside, rfl⟩ := Array.getElem?_eq_some_iff.mp found
  have ahead : b.data.toList.drop b.next = b.data[b.next] :: b.data.toList.drop (b.next + 1) :=
    List.drop_eq_getElem_cons (Array.length_toList.symm ▸ inside)
  simp only [view, Buffer.load, Bits.ofNat_or_shiftLeft bal.word_lt, ahead, Bits.unpack,
    List.flatMap_cons, List.append_assoc]

/-- Bits that are held are left to be taken. -/
theorem held_le_length (b : Buffer) : b.held ≤ b.view.rest.length := by
  rw [view, List.length_append, Bits.length_ofNat]
  exact Nat.le_add_right _ _

/-- A byte is not moved out of the word as long as this is less than half full. -/
theorem shifted_lt (byte : UInt8) (low : b.held < 32) : byte.toNat * 2 ^ b.held < wordSpace := by
  have scale : 2 ^ b.held ≤ 2 ^ 32 := Nat.pow_le_pow_right (by decide) low.le
  have space : wordSpace = 2 ^ 8 * 2 ^ 56 := rfl
  have := Nat.mul_le_mul_left byte.toNat scale
  have := byte.toNat_lt
  omega

/-- Without its lowest bits the buffer shows what comes after them. -/
theorem Balanced.drop_answers (bal : b.Balanced) (enough : count ≤ b.held) :
    ∃ b', b.drop count = some b' ∧ b'.Balanced ∧ b'.data = b.data ∧
      b'.held = b.held - count ∧ b'.view = ⟨b.taken + count, b.view.rest.drop count⟩ := by
  have balance := bal.balance
  have counted : b.taken + count ≤ b.size := by omega
  let b' : Buffer :=
    { b with word := b.word >>> count, held := b.held - count, taken := b.taken + count }
  have word : b'.word < 2 ^ b'.held := by
    have wide : 2 ^ b.held = 2 ^ count * 2 ^ (b.held - count) := by
      rw [← Nat.pow_add, Nat.add_sub_cancel' enough]
    have quotient : b.word / 2 ^ count < 2 ^ (b.held - count) :=
      Nat.div_lt_of_lt_mul (wide ▸ bal.word_lt)
    simpa only [b', Nat.shiftRight_eq_div_pow] using quotient
  have total : b'.taken + b'.held + 8 * (b'.data.size - b'.next) = b'.size := by
    simp only [b', size] at balance ⊢
    omega
  refine ⟨b', ?_, ⟨word, bal.next_le, total⟩, rfl, rfl, ?_⟩
  · simp [Buffer.drop, Checked.sub_of_le enough, Checked.upTo_of_le counted, b']
  · simp [view, Bits.ofNat_shiftRight enough b.word, b']

/-- What is taken out of the word is taken from the bits. -/
theorem Balanced.take_answers (few : count ≤ 32) (bal : b.Balanced) (enough : count ≤ b.held) :
    ∃ b', b.take count = some (Bits.toNat (b.view.rest.take count), b') ∧ b'.Balanced ∧
      b'.data = b.data ∧ b'.held = b.held - count ∧
      b'.view = ⟨b.taken + count, b.view.rest.drop count⟩ := by
  obtain ⟨one, mask⟩ := Checked.ones_of_le few
  have value : b.word &&& (1 <<< count - 1) = Bits.toNat (b.view.rest.take count) := by
    rw [Nat.one_shiftLeft, Nat.and_two_pow_sub_one_eq_mod]
    simp [view, Bits.ofNat_shiftRight enough b.word]
  obtain ⟨b', dropped, rest⟩ := bal.drop_answers enough
  refine ⟨b', ?_, rest⟩
  simp only [take, one, mask, value, dropped, Option.bind_eq_bind, Option.bind_some]
  rfl

theorem remaining_view (b : Buffer) :
    b.view.remaining = b.held + 8 * (b.data.size - b.next) := by
  simp [view, BitReader.remaining]

theorem Balanced.remaining_le (bal : b.Balanced) : b.view.remaining ≤ b.size := by
  have := bal.balance
  rw [remaining_view]
  omega

theorem Balanced.remaining_eq (bal : b.Balanced) : b.remaining = some b.view.remaining := by
  have counted := bal.remaining_le
  rw [remaining_view] at counted ⊢
  simp only [remaining, Checked.sub_of_le bal.next_le, Option.bind_eq_bind, Option.bind_some,
    Checked.upTo_of_le counted]

/-! ### From place to place -/

theorem within_ofBytes (bytes : List UInt8) : (ofBytes bytes).Within bytes where
  word_lt := Nat.one_pos
  next_le := Nat.zero_le _
  balance := by simp [ofBytes, size]
  toList_data := rfl
  held_lt := Nat.zero_lt_succ 39
  rest_view := by simp [ofBytes, view, Bits.ofNat]

theorem view_ofBytes (bytes : List UInt8) : (ofBytes bytes).view = .ofBytes bytes := by
  simp [ofBytes, view, BitReader.ofBytes, Bits.ofNat]

/-- Every bit is taken or left. -/
theorem Within.taken_add_remaining (w : b.Within bytes) :
    b.taken + b.view.remaining = 8 * bytes.length := by
  have balance := w.balance
  have all : b.data.size = bytes.length := by rw [← Array.length_toList, w.toList_data]
  rw [remaining_view]
  rw [size] at balance
  omega

/-- Taking in bytes shows nothing new. If too few bits are held afterwards, no others are left. -/
theorem Within.refill_answers (w : b.Within bytes) (few : count ≤ 32) :
    ∃ b', b.refill count = some b' ∧ b'.Within bytes ∧ b'.view = b.view ∧
      (b'.held < count → b.view.rest.length < count) := by
  fun_induction refill count b with
  | case1 b short last =>
      have none : b.data.toList.drop b.next = [] := by simpa using last
      refine ⟨b, rfl, w, rfl, fun _ => ?_⟩
      simpa [view, none, Bits.unpack] using short
  | case2 b short byte found ih =>
      have kept : byte.toNat * 2 ^ b.held < wordSpace := shifted_lt byte (by omega)
      have same := w.toBalanced.view_load found
      have loaded : (b.load (byte.toNat <<< b.held)).Within bytes :=
        { w.toBalanced.load found with
          toList_data := w.toList_data
          held_lt := by
            simp only [load]
            omega
          rest_view := by
            rw [same]
            exact w.rest_view }
      rw [Checked.shiftLeft_of_lt (by omega) kept, Checked.upTo_of_le (by omega)]
      obtain ⟨b', filled, w', seen, exhausted⟩ := ih (byte.toNat <<< b.held) loaded
      rw [same] at seen exhausted
      exact ⟨b', filled, w', seen, exhausted⟩
  | case3 b enough => exact ⟨b, rfl, w, rfl, fun short => absurd short enough⟩

/-- Taking out bits that are held goes on to a later place. -/
theorem Within.take_answers (w : b.Within bytes) (few : count ≤ 32) (enough : count ≤ b.held) :
    ∃ b', b.take count = some (Bits.toNat (b.view.rest.take count), b') ∧ b'.Within bytes ∧
      b'.view = ⟨b.taken + count, b.view.rest.drop count⟩ := by
  obtain ⟨b', taken, bal, data, held, seen⟩ := w.toBalanced.take_answers few enough
  have position : b'.taken = b.taken + count := congrArg BitReader.position seen
  have later : b'.Within bytes :=
    { bal with
      toList_data := data ▸ w.toList_data
      held_lt := by
        have := w.held_lt
        omega
      rest_view := by rw [seen, position, ← List.drop_drop, ← w.rest_view] }
  exact ⟨b', taken, later, seen⟩

end Buffer

end RunGrammar
