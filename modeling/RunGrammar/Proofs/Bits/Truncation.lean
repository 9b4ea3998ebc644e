import Mathlib
import RunGrammar.Proofs.Bits.Reading

/-!
# Reading what was cut off

An action is causal if it does not look ahead: on a front part of the bits it
does what it does on all of them, as long as it needs no others, and it fails
when it does. The number of bits that are left may be asked only to refuse too
small a number. All steps of the readers are causal, and so is what is composed
of them.

A causal action that reads a value from some bits fails on every proper front
part of these. Packed into bytes, the bits are always cut when a byte is
missing, since the last byte holds at least one of them. Bytes behind the packed
ones are not looked at.
-/

namespace RunGrammar

/-- The bits ended too early, or they could not be right. -/
def Failure.IsTruncation (e : Failure) : Prop :=
  (∃ position, e = .unexpectedEnd position) ∨ ∃ defect, e = .malformed defect

/-- Without the bits at the back the action returns the same and leaves the same bits but for
these, or it fails for the lack of them. -/
def Causal {α : Type} (read : Read α) : Prop :=
  ∀ position front back a r, read ⟨position, front ++ back⟩ = .ok a r →
    (∃ rest, r.rest = rest ++ back ∧ read ⟨position, front⟩ = .ok a ⟨r.position, rest⟩) ∨
    ∃ e r', read ⟨position, front⟩ = .error e r' ∧ e.IsTruncation

namespace Causal

variable {α β : Type} {read : Read α} {f : α → Read β}

theorem pure (a : α) : Causal (Pure.pure a) := by
  intro position front back b r returned
  cases returned
  exact .inl ⟨front, rfl, rfl⟩

/-- An action that always fails returns nothing that a cut could change. -/
theorem throw (e : Failure) : Causal (MonadExcept.throw e : Read α) := by
  intro position front back a r returned
  cases returned

theorem bind (first : Causal read) (rest : ∀ a, Causal (f a)) : Causal (read >>= f) := by
  intro position front back b r returned
  cases taken : read ⟨position, front ++ back⟩ with
  | error e r' =>
      rw [Failing.bind_of_error taken] at returned
      cases returned
  | ok a r' =>
      rw [Failing.bind_of_ok taken] at returned
      obtain ⟨left, split, same⟩ | ⟨e, r'', failed, cut⟩ := first position front back a r' taken
      · have behind : r' = ⟨r'.position, left ++ back⟩ := by rw [← split]
        rw [behind] at returned
        rw [Failing.bind_of_ok same]
        exact rest a r'.position left back b r returned
      · rw [Failing.bind_of_error failed]
        exact .inr ⟨e, r'', rfl, cut⟩

theorem map (h : Causal read) (g : α → β) : Causal (read >>= fun a => Pure.pure (g a)) :=
  h.bind fun a => pure (g a)

theorem ofExcept (x : Except Failure α) : Causal (Read.ofExcept x) := by
  cases x with
  | ok a => exact pure a
  | error e => exact throw e

theorem position : Causal Read.position := by
  intro position front back a r returned
  cases returned
  exact .inl ⟨front, rfl, rfl⟩

theorem bits (count : Nat) : Causal (Read.bits count) := by
  intro position front back a r returned
  by_cases enough : count ≤ front.length
  · left
    have same : (front ++ back).take count = front.take count :=
      List.take_append_of_le_length enough
    have whole : count ≤ (front ++ back).length :=
      Nat.le_trans enough (List.length_append ▸ Nat.le_add_right _ _)
    have left : (front ++ back).drop count = front.drop count ++ back :=
      List.drop_append_of_le_length enough
    rw [Read.bits_of_le whole] at returned
    cases returned
    refine ⟨front.drop count, left, ?_⟩
    rw [same]
    exact Read.bits_of_le enough
  · right
    have few : front.length < count := Nat.lt_of_not_le enough
    exact ⟨.unexpectedEnd position, ⟨position, front⟩, Read.bits_of_lt few, .inl ⟨position, rfl⟩⟩

theorem word (count : Nat) : Causal (Read.word count) :=
  (bits _).bind fun _ => (bits _).map _

theorem bit : Causal Read.bit := (bits 1).map _

theorem zeros (limit : Nat) : Causal (Read.zeros limit) := by
  induction limit with
  | zero => exact position.bind fun _ => throw _
  | succ limit ih =>
      apply bit.bind
      intro one
      cases one with
      | true => exact pure 0
      | false => exact ih.map _

theorem gamma : Causal Read.gamma :=
  (zeros 64).bind fun width => (word width).map _

theorem gammaFromZero : Causal Read.gammaFromZero := gamma.map _

theorem signed : Causal Read.signed := by
  apply bit.bind
  intro negative
  apply gammaFromZero.bind
  intro magnitude
  dsimp only
  generalize (if negative then -(magnitude : Int) else (magnitude : Int)) = value
  by_cases fits : Bits.isSignedWord value = true
  · rw [if_pos fits]
    exact pure value
  · rw [if_neg fits]
    exact position.bind fun _ => throw _

theorem collect (h : Causal read) (count : Nat) (done : Array α) :
    Causal (Read.collect read count done) := by
  induction count generalizing done with
  | zero => exact pure done
  | succ count ih => exact h.bind fun a => ih (done.push a)

end Causal

namespace Reads

variable {α : Type} {read : Read α} {bits : List Bool} {a : α} {bytes : List UInt8}

/-- Without the last of its bits, or with even fewer, the value is not read. -/
theorem truncated (reads : Reads read bits a) (causal : Causal read) {front back : List Bool}
    {extra : List Bool} (split : front ++ back = bits ++ extra) (cut : extra.length < back.length)
    (position : Nat) : ∃ e r, read ⟨position, front⟩ = .error e r ∧ e.IsTruncation := by
  have all := reads position extra
  rw [← split] at all
  obtain ⟨rest, left, _⟩ | failed := causal position front back a _ all
  · have long : extra.length = rest.length + back.length := by
      rw [← List.length_append, ← left]
    omega
  · exact failed

/-- If bytes are missing at the end, reading fails. -/
theorem run_of_missing (reads : Reads read bits a) (causal : Causal read)
    (front : bytes <+: Bits.pack bits) (proper : bytes ≠ Bits.pack bits) :
    ∃ e, read.run bytes = .error e ∧ e.IsTruncation := by
  obtain ⟨missing, joined⟩ := front
  have split : Bits.unpack bytes ++ Bits.unpack missing = bits ++ Bits.padding bits := by
    rw [← Bits.unpack_append, joined, Bits.unpack_pack]
  have some : missing ≠ [] := by
    rintro rfl
    exact proper (by simpa using joined)
  have cut : (Bits.padding bits).length < (Bits.unpack missing).length := by
    have := List.length_pos_iff.mpr some
    rw [Bits.padding, List.length_replicate, Bits.length_unpack]
    omega
  obtain ⟨e, r, failed, truncation⟩ := reads.truncated causal split cut 0
  exact ⟨e, Read.run_of_error failed, truncation⟩

/-- Bytes behind the packed ones make no difference. -/
theorem run_pack_append (reads : Reads read bits a) (extra : List UInt8) :
    read.run (Bits.pack bits ++ extra) = .ok a := by
  apply Read.run_of_ok
  rw [BitReader.ofBytes, Bits.unpack_append, Bits.unpack_pack, List.append_assoc, reads 0]

end Reads

end RunGrammar
