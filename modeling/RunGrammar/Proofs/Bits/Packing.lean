import Mathlib
import RunGrammar.Bits.Lemmas

/-!
# Bits in bytes

Packing bits into bytes and taking the bytes apart again gives the same bits
and, behind them, the zeros that fill up the last byte. A number in a field
that is wide enough is split into two fields at any width.
-/

namespace RunGrammar.Bits

/-- The zeros that fill up the last byte of some bits. -/
def padding (bits : List Bool) : List Bool :=
  List.replicate ((8 - bits.length % 8) % 8) false

theorem ofNat_zero (width : Nat) : ofNat width 0 = List.replicate width false := by
  induction width with
  | zero => rfl
  | succ width ih => simp [ofNat, ih, List.replicate_succ]

/-- Writing the number of some bits in a wider field appends zeros. -/
theorem ofNat_toNat {width : Nat} {bits : List Bool} (h : bits.length ≤ width) :
    ofNat width (toNat bits) = bits ++ List.replicate (width - bits.length) false := by
  induction bits generalizing width with
  | nil => simp [toNat, ofNat_zero]
  | cons bit bits ih =>
      cases width with
      | zero => simp at h
      | succ width =>
          have low : (bit.toNat + 2 * toNat bits) % 2 = bit.toNat := by cases bit <;> simp
          have high : (bit.toNat + 2 * toNat bits) / 2 = toNat bits := by
            cases bit <;> simp
            omega
          have rest := ih (Nat.le_of_succ_le_succ h)
          rw [toNat, ofNat, low, high, rest]
          cases bit <;> simp

/-- In a field of their own number some bits are kept as they are. -/
theorem ofNat_toNat_of_length {width : Nat} {bits : List Bool} (h : bits.length = width) :
    ofNat width (toNat bits) = bits := by
  rw [ofNat_toNat h.le, h, Nat.sub_self]
  exact List.append_nil bits

theorem ofNat_add (low high value : Nat) :
    ofNat (low + high) value = ofNat low value ++ ofNat high (value / 2 ^ low) := by
  induction low generalizing value with
  | zero => simp [ofNat]
  | succ low ih =>
      rw [Nat.succ_add, ofNat, ofNat, ih, Nat.div_div_eq_div_mul, ← Nat.pow_succ']
      rfl

/-- The bits of a field depend on so many bits of the value only. -/
theorem ofNat_mod (width value : Nat) : ofNat width (value % 2 ^ width) = ofNat width value := by
  simpa using ofNat_toNat_of_length (length_ofNat width value)

theorem ofNat_mod_of_le {width bound : Nat} (narrow : width ≤ bound) (value : Nat) :
    ofNat width (value % 2 ^ bound) = ofNat width value := by
  have same : value % 2 ^ bound % 2 ^ width = value % 2 ^ width :=
    Nat.mod_mod_of_dvd value (Nat.pow_dvd_pow 2 narrow)
  rw [← ofNat_mod, same, ofNat_mod]

/-- The bits of a number, cut in two. -/
theorem ofNat_shiftRight {held count : Nat} (enough : count ≤ held) (word : Nat) :
    ofNat held word = ofNat count word ++ ofNat (held - count) (word >>> count) := by
  have cut := ofNat_add count (held - count) word
  rwa [Nat.add_sub_cancel' enough, ← Nat.shiftRight_eq_div_pow] at cut

variable {held word : Nat}

/-- What is moved behind some bits follows them. -/
theorem ofNat_or_shiftLeft (h : word < 2 ^ held) (width value : Nat) :
    ofNat (held + width) (word ||| value <<< held) = ofNat held word ++ ofNat width value := by
  have sum : word ||| value <<< held = word + 2 ^ held * value := by
    rw [Nat.or_comm, ← Nat.shiftLeft_add_eq_or_of_lt h, Nat.shiftLeft_eq, Nat.add_comm,
      Nat.mul_comm]
  have low : (word + 2 ^ held * value) % 2 ^ held = word := by
    rw [Nat.add_mul_mod_self_left, Nat.mod_eq_of_lt h]
  have high : (word + 2 ^ held * value) / 2 ^ held = value := by
    rw [Nat.add_mul_div_left _ _ (Nat.two_pow_pos held), Nat.div_eq_of_lt h, Nat.zero_add]
  rw [sum, ofNat_add, high, ← ofNat_mod held, low]

theorem or_shiftLeft_lt {width value : Nat} (low : word < 2 ^ held) (high : value < 2 ^ width) :
    word ||| value <<< held < 2 ^ (held + width) := by
  apply Nat.or_lt_two_pow
  · exact Nat.lt_of_lt_of_le low (Nat.pow_le_pow_right (by decide) (Nat.le_add_right _ _))
  · rw [Nat.shiftLeft_eq, Nat.pow_add, Nat.mul_comm]
    exact Nat.mul_lt_mul_of_pos_left high (Nat.two_pow_pos held)

theorem unpack_append (xs ys : List UInt8) : unpack (xs ++ ys) = unpack xs ++ unpack ys :=
  List.flatMap_append

@[simp] theorem length_unpack (bytes : List UInt8) : (unpack bytes).length = 8 * bytes.length := by
  simp [unpack, Nat.mul_comm]

/-- One byte holds up to eight bits. -/
theorem ofNat_byte {bits : List Bool} (h : bits.length ≤ 8) :
    ofNat 8 (UInt8.ofNat (toNat bits)).toNat = bits ++ List.replicate (8 - bits.length) false := by
  have small : toNat bits < 256 :=
    Nat.lt_of_lt_of_le (toNat_lt bits) (Nat.pow_le_pow_right (by decide) h)
  rw [UInt8.toNat_ofNat', Nat.mod_eq_of_lt small, ofNat_toNat h]

theorem unpack_packOnto (bytes : Array UInt8) (bits : List Bool) :
    unpack (packOnto bytes bits).toList = unpack bytes.toList ++ bits ++ padding bits := by
  fun_induction packOnto bytes bits with
  | case1 bytes => simp [padding]
  | case2 bytes bit rest ih =>
      have byte : unpack [UInt8.ofNat (toNat ((bit :: rest).take 8))] =
          (bit :: rest).take 8 ++ List.replicate (8 - ((bit :: rest).take 8).length) false := by
        rw [unpack, List.flatMap_singleton]
        exact ofNat_byte (List.length_take_le 8 _)
      rw [ih, Array.toList_push, unpack_append, byte]
      by_cases last : (bit :: rest).length ≤ 8
      · -- The last byte is filled up, and nothing is left behind it.
        have dropped : (bit :: rest).drop 8 = [] := List.drop_eq_nil_of_le last
        have taken : (bit :: rest).take 8 = bit :: rest := List.take_of_length_le last
        have filled : 8 - (bit :: rest).length = (8 - (bit :: rest).length % 8) % 8 := by
          simp only [List.length_cons] at last ⊢
          omega
        rw [dropped, taken, filled]
        simp [padding]
      · have full : ((bit :: rest).take 8).length = 8 := by
          rw [List.length_take]
          omega
        have same : padding ((bit :: rest).drop 8) = padding (bit :: rest) := by
          have : (bit :: rest).length - 8 + 8 = (bit :: rest).length := by omega
          unfold padding
          rw [List.length_drop, ← this, Nat.add_mod_right, Nat.add_sub_cancel]
        rw [full, same]
        simp only [Nat.sub_self, List.replicate_zero, List.append_nil, List.append_assoc]
        rw [← List.append_assoc ((bit :: rest).take 8), List.take_append_drop]

/-- Taking packed bytes apart gives the bits back, and zeros behind them. -/
theorem unpack_pack (bits : List Bool) : unpack (pack bits) = bits ++ padding bits := by
  simpa [pack, unpack] using unpack_packOnto #[] bits

/-- There are as many bytes as it takes to hold all bits. -/
theorem length_pack (bits : List Bool) : (pack bits).length = (bits.length + 7) / 8 := by
  have total := congrArg List.length (unpack_pack bits)
  rw [length_unpack, List.length_append, padding, List.length_replicate] at total
  omega

/-- Up to eight bits make up one byte. -/
theorem packOnto_of_length_le (done : Array UInt8) {bits : List Bool} (some : bits ≠ [])
    (few : bits.length ≤ 8) : packOnto done bits = done.push (.ofNat (toNat bits)) := by
  obtain ⟨bit, rest, rfl⟩ := List.exists_cons_of_ne_nil some
  rw [packOnto, List.take_of_length_le few, List.drop_eq_nil_of_le few, packOnto]

theorem packOnto_append (done : Array UInt8) {byte : List Bool} (full : byte.length = 8)
    (bits : List Bool) :
    packOnto done (byte ++ bits) = packOnto (done.push (.ofNat (toNat byte))) bits := by
  obtain ⟨bit, rest, rfl⟩ := List.exists_cons_of_length_pos (l := byte) (by omega)
  rw [List.cons_append, packOnto, ← List.cons_append, List.take_left' full, List.drop_left' full]

/-- Bytes that were taken apart are packed as they were. -/
theorem packOnto_unpack (done : Array UInt8) (bytes : List UInt8) (bits : List Bool) :
    packOnto done (unpack bytes ++ bits) = packOnto (done ++ bytes.toArray) bits := by
  induction bytes generalizing done with
  | nil => simp [unpack]
  | cons b bytes ih =>
      have same : UInt8.ofNat (toNat (ofNat 8 b.toNat)) = b := by
        simp [Nat.mod_eq_of_lt b.toNat_lt]
      have front : unpack (b :: bytes) ++ bits = ofNat 8 b.toNat ++ (unpack bytes ++ bits) :=
        List.append_assoc _ _ _
      rw [front, packOnto_append done (length_ofNat 8 b.toNat), same, ih]
      simp

theorem pack_ne_nil {bits : List Bool} (some : bits ≠ []) : pack bits ≠ [] := by
  have := List.length_pos_iff.mpr some
  apply List.ne_nil_of_length_pos
  rw [length_pack]
  omega

end RunGrammar.Bits
