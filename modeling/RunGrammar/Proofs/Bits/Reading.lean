import Mathlib
import RunGrammar.Bits.Field
import RunGrammar.Format.Header
import RunGrammar.Proofs.Bits.Packing
import RunGrammar.Proofs.Failing

/-!
# Reading what was written

An action reads a value from some bits when, on any reader that continues with
these bits, it takes exactly them and returns the value. This is closed under
sequencing, so the reader of a format is followed field by field.
-/

namespace RunGrammar

namespace Read

variable {α : Type} {read : Read α} {r' : BitReader} {a : α} {e : Failure}

theorem run_of_ok {bytes : List UInt8} (h : read (.ofBytes bytes) = .ok a r') :
    read.run bytes = .ok a := by
  rw [run, h]

theorem run_of_error {bytes : List UInt8} (h : read (.ofBytes bytes) = .error e r') :
    read.run bytes = .error e := by
  rw [run, h]

theorem exists_of_run {bytes : List UInt8} (done : read.run bytes = .ok a) :
    ∃ r, read (.ofBytes bytes) = .ok a r := by
  cases taken : read (.ofBytes bytes) with
  | ok b r =>
      rw [run_of_ok taken] at done
      cases done
      exact ⟨r, rfl⟩
  | error e r =>
      rw [run_of_error taken] at done
      cases done

variable {count : Nat}

theorem bits_of_le (enough : count ≤ r.rest.length) :
    bits count r = .ok (Bits.toNat (r.rest.take count)) ⟨r.position + count, r.rest.drop count⟩ :=
  if_pos (List.length_take_of_le enough)

theorem bits_of_lt (few : r.rest.length < count) :
    bits count r = .error (.unexpectedEnd r.position) r := by
  have missing : (r.rest.take count).length ≠ count := by
    rw [List.length_take]
    omega
  exact if_neg missing

end Read

/-- The action takes exactly these bits, whatever follows them, and returns the value. -/
def Reads {α : Type} (read : Read α) (bits : List Bool) (a : α) : Prop :=
  ∀ position rest, read ⟨position, bits ++ rest⟩ = .ok a ⟨position + bits.length, rest⟩

namespace Reads

variable {α β : Type} {read : Read α} {bits front back : List Bool} {a : α} {b : β}

theorem pure (a : α) : Reads (Pure.pure a) [] a := fun _ _ => rfl

theorem bind {f : α → Read β} (first : Reads read front a) (second : Reads (f a) back b) :
    Reads (read >>= f) (front ++ back) b := by
  intro position rest
  have front' := first position (back ++ rest)
  rw [← List.append_assoc] at front'
  rw [Failing.bind_of_ok front', second, List.length_append, Nat.add_assoc]

/-- A step that takes no bits may come last. -/
theorem bind_nil {f : α → Read β} (first : Reads read bits a) (last : Reads (f a) [] b) :
    Reads (read >>= f) bits b := by
  have both := first.bind last
  rwa [List.append_nil] at both

theorem map {f : α → β} (h : Reads read bits a) :
    Reads (read >>= fun x => Pure.pure (f x)) bits (f a) :=
  h.bind_nil (Reads.pure (f a))

theorem ofExcept {x : Except Failure α} (h : x = .ok a) : Reads (Read.ofExcept x) [] a := by
  subst h
  exact Reads.pure a

theorem bits_taken (count : Nat) (bits : List Bool) (h : bits.length = count) :
    Reads (Read.bits count) bits (Bits.toNat bits) := by
  intro position rest
  subst h
  simp [Read.bits]

theorem bits_ofNat (count value : Nat) :
    Reads (Read.bits count) (Bits.ofNat count value) (value % 2 ^ count) := by
  have := bits_taken count (Bits.ofNat count value) (Bits.length_ofNat count value)
  rwa [Bits.toNat_ofNat] at this

theorem bit (value : Bool) : Reads Read.bit [value] value := by
  have taken := (bits_taken 1 [value] rfl).map (f := fun n => decide (n ≠ 0))
  have same : decide (Bits.toNat [value] ≠ 0) = value := by cases value <;> rfl
  rw [same] at taken
  exact taken

/-- A word of up to 64 bits is read in two halves. -/
theorem word_ofNat (count value : Nat) (h : count ≤ 64) :
    Reads (Read.word count) (Bits.ofNat count value) (value % 2 ^ count) := by
  have split : count = min count 32 + (count - min count 32) := by omega
  have join : value % 2 ^ min count 32 +
      ((value / 2 ^ min count 32) % 2 ^ (count - min count 32)) <<< 32 = value % 2 ^ count := by
    by_cases narrow : count ≤ 32
    · simp [Nat.min_eq_left narrow, Nat.mod_one]
    · have wide : min count 32 = 32 := by omega
      rw [wide, Nat.shiftLeft_eq, Nat.mul_comm, ← Nat.mod_mul, ← Nat.pow_add]
      congr 2
      omega
  have halves := (bits_ofNat (min count 32) value).bind
    (f := fun low => Read.bits (count - min count 32) >>= fun high => Pure.pure (low + high <<< 32))
    (bits_ofNat (count - min count 32) (value / 2 ^ min count 32)).map
  rw [← Bits.ofNat_add, ← split, join] at halves
  exact halves

theorem word_of_lt {count value : Nat} (h : count ≤ 64) (fits : value < 2 ^ count) :
    Reads (Read.word count) (Bits.ofNat count value) value := by
  have := word_ofNat count value h
  rwa [Nat.mod_eq_of_lt fits] at this

theorem bits_of_lt {count value : Nat} (fits : value < 2 ^ count) :
    Reads (Read.bits count) (Bits.ofNat count value) value := by
  have := bits_ofNat count value
  rwa [Nat.mod_eq_of_lt fits] at this

/-- A list of values is read one after the other. -/
theorem collect {encode : α → List Bool} (values : List α)
    (each : ∀ x ∈ values, Reads read (encode x) x) (done : Array α) :
    Reads (Read.collect read values.length done) (values.flatMap encode)
      (done ++ values.toArray) := by
  induction values generalizing done with
  | nil => simpa [Read.collect] using Reads.pure done
  | cons x xs ih =>
      have first := each x (by simp)
      have rest := ih (fun y hy => each y (by simp [hy])) (done.push x)
      have both := first.bind (f := fun a => Read.collect read xs.length (done.push a)) rest
      rw [Array.push_eq_append, Array.append_assoc] at both
      simpa [Read.collect] using both

/-- What an action reads from packed bits does not depend on how the last byte is filled up. -/
theorem run_pack (h : Reads read bits a) : read.run (Bits.pack bits) = .ok a := by
  apply Read.run_of_ok
  rw [BitReader.ofBytes, Bits.unpack_pack, h 0]

end Reads

end RunGrammar
