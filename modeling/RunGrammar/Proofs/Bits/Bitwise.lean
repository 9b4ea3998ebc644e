import Mathlib
import RunGrammar.Bits.Field
import RunGrammar.Proofs.Bits.Reading

/-!
# Reading bit by bit

The one step that takes anything from a reader takes a single bit. A number of
up to 32 bits is so many steps, but all of them or none: if the bits end too
early, the reader is put back to where it was. A word is two such numbers, and
a code is steps one after the other, so these are not put back.

Each way of reading a field in `Field.read` is its composition of single steps,
the failures and what was taken before them included.
-/

namespace RunGrammar

namespace Read
variable {α : Type} {read : Read α} {r r' : BitReader} {a : α} {e : Failure} {count : Nat}

/-- What an action answers, and where it leaves the reader. -/
def outcome (read : Read α) (r : BitReader) : Except Failure α × BitReader :=
  match read r with
  | .ok a r' => (.ok a, r')
  | .error e r' => (.error e, r')

/-- An observed action does not fail; what it would have answered is a value. -/
theorem observing_eq (read : Read α) (r : BitReader) :
    (observing read : Read (Except Failure α)) r = .ok (read.outcome r).1 (read.outcome r).2 := by
  show EStateM.tryCatch (read >>= fun a => (pure (.ok a) : Read (Except Failure α))) _ r = _
  cases taken : read r with
  | ok a r' =>
      rw [EStateM.tryCatch, Failing.bind_of_ok taken, outcome, taken]
      rfl
  | error e r' =>
      rw [EStateM.tryCatch, Failing.bind_of_error taken, outcome, taken]
      rfl

/-- The lower half of a word is taken although the upper one is not there. -/
theorem word_of_lt (half : 32 ≤ r.rest.length) (few : r.rest.length < count) :
    word count r =
      .error (.unexpectedEnd (r.position + 32)) ⟨r.position + 32, r.rest.drop 32⟩ := by
  have low : min count 32 = 32 := by omega
  have high : (r.rest.drop 32).length < count - 32 := by
    rw [List.length_drop]
    omega
  rw [word, low, Failing.bind_of_ok (bits_of_le half)]
  exact Failing.bind_of_error (bits_of_lt high)

theorem word_of_le (few : count ≤ 64) (enough : count ≤ r.rest.length) :
    word count r =
      .ok (Bits.toNat (r.rest.take count)) ⟨r.position + count, r.rest.drop count⟩ := by
  have long : (r.rest.take count).length = count := List.length_take_of_le enough
  have bits : Bits.ofNat count (Bits.toNat (r.rest.take count)) = r.rest.take count :=
    Bits.ofNat_toNat_of_length long
  have small := Bits.toNat_lt (r.rest.take count)
  rw [long] at small
  have read := Reads.word_of_lt few small r.position (r.rest.drop count)
  rwa [bits, List.take_append_drop, long] at read

/-- A word that does not fit into the bits that are left meets their end. -/
theorem word_of_short (few : r.rest.length < count) :
    ∃ position r', word count r = .error (.unexpectedEnd position) r' := by
  obtain half | none := Nat.le_total 32 r.rest.length
  · exact ⟨_, _, word_of_lt half few⟩
  · by_cases low : r.rest.length < min count 32
    · exact ⟨_, _, by rw [word, Failing.bind_of_error (bits_of_lt low)]⟩
    · exact ⟨_, _, word_of_lt (by omega) few⟩

end Read

namespace Bitwise

/-- Takes one bit. -/
def bit : Read Bool := fun r =>
  match r.rest with
  | [] => .error (.unexpectedEnd r.position) r
  | bit :: rest => .ok bit ⟨r.position + 1, rest⟩

/-- Takes bits one by one, the lowest first. -/
def number : (count : Nat) → Read Nat
  | 0 => return 0
  | count + 1 => do
    let low ← bit
    let high ← number count
    return low.toNat + 2 * high

/-- Takes all of the bits or none of them. -/
def whole (count : Nat) : Read Nat := fun r =>
  match number count r with
  | .ok value r' => .ok value r'
  | .error _ _ => .error (.unexpectedEnd r.position) r

/-- Takes a number whose lower half is taken even if there is no upper half. -/
def word (count : Nat) : Read Nat := do
  let low ← whole (min count 32)
  let high ← whole (count - min count 32)
  return low + 2 ^ 32 * high

/-- Takes zeros up to and including the next one, and counts them. There may be fewer than
`limit`. -/
def zeros : (limit : Nat) → Read Nat
  | 0 => do throw (.malformed (.longGamma (← Read.position)))
  | limit + 1 => do
    if ← bit then return 0
    else return (← zeros limit) + 1

def gamma : Read Nat := do
  let width ← zeros 64
  let low ← word width
  return 2 ^ width + low

def signed : Read Int := do
  let negative ← bit
  let magnitude := (← gamma) - 1
  let value : Int := if negative then -magnitude else magnitude
  if Bits.isSignedWord value then return value
  else throw (.malformed (.signedRange (← Read.position)))

def field : Shape → Read Field
  | .bits width => return .bits width (← whole width)
  | .word width => return .word width (← word width)
  | .bit => return .bit (← bit)
  | .gamma => return .gamma (← gamma)
  | .gammaFromZero => return .gammaFromZero ((← gamma) - 1)
  | .signed => return .signed (← signed)

variable {count : Nat} {r : BitReader}

/-- Bit by bit a number is taken as far as there are bits. -/
theorem number_eq (count : Nat) (r : BitReader) :
    (count ≤ r.rest.length → number count r =
      .ok (Bits.toNat (r.rest.take count)) ⟨r.position + count, r.rest.drop count⟩) ∧
    (r.rest.length < count → ∃ e r', number count r = .error e r') := by
  induction count generalizing r with
  | zero => exact ⟨fun _ => rfl, fun short => absurd short (Nat.not_lt_zero _)⟩
  | succ count ih =>
      obtain ⟨position, rest⟩ := r
      cases rest with
      | nil => exact ⟨fun enough => absurd enough (Nat.not_succ_le_zero count),
          fun _ => ⟨.unexpectedEnd position, ⟨position, []⟩, rfl⟩⟩
      | cons low rest =>
          have first : bit ⟨position, low :: rest⟩ = .ok low ⟨position + 1, rest⟩ := rfl
          obtain ⟨enough, short⟩ := ih ⟨position + 1, rest⟩
          constructor
          · intro h
            rw [number, Failing.bind_of_ok first,
              Failing.bind_of_ok (enough (Nat.le_of_succ_le_succ h)), Nat.add_assoc, Nat.add_comm 1]
            rfl
          · intro h
            obtain ⟨e, r', failed⟩ := short (Nat.lt_of_succ_lt_succ h)
            exact ⟨e, r', by rw [number, Failing.bind_of_ok first, Failing.bind_of_error failed]⟩

theorem whole_eq (count : Nat) : whole count = Read.bits count := by
  funext r
  obtain ⟨enough, short⟩ := number_eq count r
  obtain h | h := Nat.lt_or_ge r.rest.length count
  · obtain ⟨e, r', failed⟩ := short h
    rw [whole, failed, Read.bits_of_lt h]
  · rw [whole, enough h, Read.bits_of_le h]

theorem bit_eq : bit = Read.bit := by
  funext r
  obtain ⟨position, rest⟩ := r
  cases rest with
  | nil => rfl
  | cons low rest => cases low <;> rfl

theorem word_eq (count : Nat) : word count = Read.word count := by
  simp only [word, Read.word, whole_eq, Nat.shiftLeft_eq, Nat.mul_comm]

theorem zeros_eq (limit : Nat) : zeros limit = Read.zeros limit := by
  induction limit with
  | zero => rfl
  | succ limit ih => simp only [zeros, Read.zeros, bit_eq, ih]

theorem gamma_eq : gamma = Read.gamma := by
  simp only [gamma, Read.gamma, zeros_eq, word_eq, Nat.one_shiftLeft]

theorem signed_eq : signed = Read.signed := by
  simp [signed, Read.signed, Read.gammaFromZero, bit_eq, gamma_eq]

/-- Every field is read by steps that take a single bit. -/
theorem field_eq (shape : Shape) : field shape = Field.read shape := by
  cases shape with
  | bits width => simp only [field, Field.read, whole_eq]
  | word width => simp only [field, Field.read, word_eq]
  | bit => simp only [field, Field.read, bit_eq]
  | gamma => simp only [field, Field.read, gamma_eq]
  | gammaFromZero => simp [field, Field.read, gamma_eq, Read.gammaFromZero]
  | signed => simp only [field, Field.read, signed_eq]

end Bitwise
end RunGrammar
