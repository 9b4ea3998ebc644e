import Mathlib
import RunGrammar.Proofs.Bits.Resuming
import RunGrammar.Proofs.Bits.Writing

/-!
# Codes are canonical

A code is read from the bits that are written for its value and from no others,
with one exception: zero with a negative sign is read as zero. So whatever the
bytes are and wherever reading begins, the bits that were taken tell the value
and the value tells the bits.

If no code is read, the bits show why. They end inside a code, or more zeros
come first than any code has, or a signed number is no signed word.
-/

namespace RunGrammar

namespace Bits

/-- The bits end inside a code. -/
def Incomplete (rest : List Bool) : Prop :=
  ∃ value, 1 ≤ value ∧ value < wordSpace ∧ rest <+: gamma value ∧ rest ≠ gamma value

/-- More zeros come first than there are in any code. -/
def Runaway (rest : List Bool) : Prop := List.replicate 64 false <+: rest

/-- No code can be read from the bits, for the reason that the failure gives. -/
def NoCode (rest : List Bool) (e : Failure) : Prop :=
  (Incomplete rest ∧ ∃ position, e = .unexpectedEnd position) ∨
    Runaway rest ∧ ∃ position, e = .malformed (.longGamma position)

/-- The number with this sign and magnitude. -/
def withSign (negative : Bool) (magnitude : Nat) : Int :=
  if negative then -magnitude else magnitude

/-- No signed number can be read from the bits, for the reason that the failure gives: its sign is
missing, the code of its magnitude cannot be read, or it is no signed word with this sign. -/
def NoSigned (rest : List Bool) (e : Failure) : Prop :=
  (rest = [] ∧ ∃ position, e = .unexpectedEnd position) ∨
    ∃ negative code, rest = negative :: code ∧
      (NoCode code e ∨
        ∃ magnitude behind, magnitude < wordSpace - 1 ∧
          code = gammaFromZero magnitude ++ behind ∧
          isSignedWord (withSign negative magnitude) = false ∧
          ∃ position, e = .malformed (.signedRange position))

variable {width : Nat} {low rest : List Bool}

/-- Behind so many zeros and a one, as many bits make up a code. -/
theorem gamma_two_pow_add (long : low.length = width) :
    gamma (2 ^ width + toNat low) = List.replicate width false ++ true :: low := by
  have small : toNat low < 2 ^ width := long ▸ toNat_lt low
  have log : (2 ^ width + toNat low).log2 = width := by
    rw [Nat.log2_eq_iff (by omega)]
    rw [Nat.pow_succ]
    omega
  have bits : ofNat width (2 ^ width + toNat low) = low := by
    rw [← ofNat_mod, Nat.add_mod_left, ofNat_mod, ofNat_toNat_of_length long]
  rw [gamma, log, bits]

/-- The value of a code with fewer than 64 zeros is a positive word. -/
theorem two_pow_add_lt (narrow : width < 64) (long : low.length = width) :
    1 ≤ 2 ^ width + toNat low ∧ 2 ^ width + toNat low < wordSpace := by
  have small : toNat low < 2 ^ width := long ▸ toNat_lt low
  have scale : 2 ^ width ≤ 2 ^ 63 := Nat.pow_le_pow_right (by decide) (Nat.le_of_lt_succ narrow)
  have space : wordSpace = 2 ^ 63 * 2 := rfl
  omega

/-- The bits may end behind the leading bit of a code. -/
theorem incomplete_of_short (narrow : width < 64) (short : low.length < width) :
    Incomplete (List.replicate width false ++ true :: low) := by
  let filled := low ++ List.replicate (width - low.length) false
  have long : filled.length = width := by
    rw [List.length_append, List.length_replicate]
    omega
  obtain ⟨pos, fits⟩ := two_pow_add_lt narrow long
  have code := gamma_two_pow_add long
  refine ⟨_, pos, fits, ?_, ?_⟩
  · rw [code]
    exact ⟨List.replicate (width - low.length) false, by simp [filled]⟩
  · rw [code]
    intro same
    have lengths := congrArg List.length same
    simp only [List.length_append, List.length_cons] at lengths
    omega

/-- They may end before it. -/
theorem incomplete_replicate (narrow : width < 64) : Incomplete (List.replicate width false) := by
  have long : (List.replicate width false).length = width := List.length_replicate
  obtain ⟨pos, fits⟩ := two_pow_add_lt narrow long
  have code := gamma_two_pow_add long
  refine ⟨_, pos, fits, ?_, ?_⟩
  · rw [code]
    exact List.prefix_append _ _
  · rw [code]
    simp

/-- Only zero has two signs, and it is written with the positive one. -/
theorem signed_withSign {negative : Bool} {magnitude : Nat}
    (other : ¬ (negative = true ∧ magnitude = 0)) :
    signed (withSign negative magnitude) = negative :: gammaFromZero magnitude := by
  cases negative with
  | true =>
      have some : magnitude ≠ 0 := fun zero => other ⟨rfl, zero⟩
      have below : -(magnitude : Int) < 0 := by omega
      simp only [signed, withSign, if_true, decide_eq_true below, Int.natAbs_neg,
        Int.natAbs_natCast]
  | false =>
      have above : ¬ (magnitude : Int) < 0 := by omega
      simp only [signed, withSign, Bool.false_eq_true, if_false, decide_eq_false above,
        Int.natAbs_natCast]

end Bits

namespace Read

/-- Zeros are counted up to the next one. If there is none, the bits end or there are too many. -/
theorem zeros_answers (limit : Nat) (r : BitReader) :
    (∃ width rest, width < limit ∧ r.rest = List.replicate width false ++ true :: rest ∧
      zeros limit r = .ok width ⟨r.position + width + 1, rest⟩) ∨
    (∃ width position r', width < limit ∧ r.rest = List.replicate width false ∧
      zeros limit r = .error (.unexpectedEnd position) r') ∨
    ∃ position r', List.replicate limit false <+: r.rest ∧
      zeros limit r = .error (.malformed (.longGamma position)) r' := by
  induction limit generalizing r with
  | zero => exact .inr (.inr ⟨_, r, List.nil_prefix, rfl⟩)
  | succ limit ih =>
      obtain ⟨position, rest⟩ := r
      cases rest with
      | nil => exact .inr (.inl ⟨0, position, ⟨position, []⟩, Nat.succ_pos _, rfl, rfl⟩)
      | cons first rest =>
          have taken := Reads.bit first position rest
          rw [List.singleton_append, List.length_singleton] at taken
          cases first with
          | true =>
              refine .inl ⟨0, rest, Nat.succ_pos _, rfl, ?_⟩
              rw [zeros, Failing.bind_of_ok taken]
              rfl
          | false =>
              have step : zeros (limit + 1) ⟨position, false :: rest⟩ =
                  (zeros limit >>= fun width => pure (width + 1)) ⟨position + 1, rest⟩ := by
                rw [zeros, Failing.bind_of_ok taken]
                rfl
              rw [step]
              obtain ⟨width, behind, less, split, counted⟩ |
                ⟨width, stop, r', less, split, failed⟩ | ⟨stop, r', many, failed⟩ :=
                ih ⟨position + 1, rest⟩
              · refine .inl ⟨width + 1, behind, Nat.succ_lt_succ less, ?_, ?_⟩
                · exact congrArg (false :: ·) split
                · rw [Failing.bind_of_ok counted, Nat.add_assoc position, Nat.add_comm 1]
                  rfl
              · refine .inr (.inl ⟨width + 1, stop, r', Nat.succ_lt_succ less, ?_, ?_⟩)
                · exact congrArg (false :: ·) split
                · rw [Failing.bind_of_error failed]
              · refine .inr (.inr ⟨stop, r', ?_, ?_⟩)
                · exact (List.prefix_cons_inj false).mpr many
                · rw [Failing.bind_of_error failed]

/-- A code is read from its bits only. -/
theorem gamma_answers (r : BitReader) :
    (∃ value rest, 1 ≤ value ∧ value < wordSpace ∧ r.rest = Bits.gamma value ++ rest ∧
      gamma r = .ok value ⟨r.position + (Bits.gamma value).length, rest⟩) ∨
    ∃ e r', gamma r = .error e r' ∧ Bits.NoCode r.rest e := by
  obtain ⟨width, rest, narrow, split, counted⟩ | ⟨width, stop, r', narrow, split, failed⟩ |
    ⟨stop, r', many, failed⟩ := zeros_answers 64 r
  · obtain enough | short := Nat.lt_or_ge rest.length width |>.symm
    · left
      have long : (rest.take width).length = width := List.length_take_of_le enough
      obtain ⟨pos, fits⟩ := Bits.two_pow_add_lt narrow long
      have code := Bits.gamma_two_pow_add long
      have low := word_of_le (r := ⟨r.position + width + 1, rest⟩) narrow.le enough
      refine ⟨_, rest.drop width, pos, fits, ?_, ?_⟩
      · rw [split, code, List.append_assoc, List.cons_append, List.take_append_drop]
      · rw [gamma, Failing.bind_of_ok counted, Failing.bind_of_ok low, code, Nat.one_shiftLeft]
        have total : r.position + width + 1 + width =
            r.position + (List.replicate width false ++ true :: rest.take width).length := by
          simp only [List.length_append, List.length_replicate, List.length_cons, long]
          omega
        rw [← total]
        rfl
    · right
      obtain ⟨stop, r', failed⟩ :=
        word_of_short (r := ⟨r.position + width + 1, rest⟩) short
      have stopped : gamma r = .error (.unexpectedEnd stop) r' := by
        rw [gamma, Failing.bind_of_ok counted, Failing.bind_of_error failed]
      have code : Bits.Incomplete r.rest := by
        rw [split]
        exact Bits.incomplete_of_short narrow short
      exact ⟨_, r', stopped, .inl ⟨code, stop, rfl⟩⟩
  · right
    have stopped : gamma r = .error (.unexpectedEnd stop) r' := by
      rw [gamma, Failing.bind_of_error failed]
    have code : Bits.Incomplete r.rest := by
      rw [split]
      exact Bits.incomplete_replicate narrow
    exact ⟨_, r', stopped, .inl ⟨code, stop, rfl⟩⟩
  · right
    have stopped : gamma r = .error (.malformed (.longGamma stop)) r' := by
      rw [gamma, Failing.bind_of_error failed]
    exact ⟨_, r', stopped, .inr ⟨many, stop, rfl⟩⟩

theorem gammaFromZero_answers (r : BitReader) :
    (∃ value rest, value < wordSpace - 1 ∧ r.rest = Bits.gammaFromZero value ++ rest ∧
      gammaFromZero r = .ok value ⟨r.position + (Bits.gammaFromZero value).length, rest⟩) ∨
    ∃ e r', gammaFromZero r = .error e r' ∧ Bits.NoCode r.rest e := by
  obtain ⟨value, rest, pos, fits, split, taken⟩ | ⟨e, r', failed, none⟩ := gamma_answers r
  · have code : Bits.gammaFromZero (value - 1) = Bits.gamma value := by
      rw [Bits.gammaFromZero, Nat.sub_add_cancel pos, Nat.min_eq_left (by omega)]
    refine .inl ⟨value - 1, rest, by omega, code ▸ split, ?_⟩
    rw [gammaFromZero, Failing.bind_of_ok taken, code]
    rfl
  · exact .inr ⟨e, r', by rw [gammaFromZero, Failing.bind_of_error failed], none⟩

section Signed

variable {negative : Bool} {magnitude position : Nat} {code rest : List Bool} {r : BitReader}

theorem signed_of_fits (taken : gammaFromZero ⟨position + 1, code⟩ = .ok magnitude r)
    (fits : Bits.isSignedWord (Bits.withSign negative magnitude) = true) :
    signed ⟨position, negative :: code⟩ = .ok (Bits.withSign negative magnitude) r := by
  have sign := Reads.bit negative position code
  rw [List.singleton_append, List.length_singleton] at sign
  rw [signed, Failing.bind_of_ok sign, Failing.bind_of_ok taken]
  exact congrFun (if_pos fits) r

theorem signed_of_not_fits (taken : gammaFromZero ⟨position + 1, code⟩ = .ok magnitude r)
    (large : ¬ Bits.isSignedWord (Bits.withSign negative magnitude) = true) :
    signed ⟨position, negative :: code⟩ = .error (.malformed (.signedRange r.position)) r := by
  have sign := Reads.bit negative position code
  rw [List.singleton_append, List.length_singleton] at sign
  rw [signed, Failing.bind_of_ok sign, Failing.bind_of_ok taken]
  exact congrFun (if_neg large) r

theorem signed_of_error {e : Failure} (failed : gammaFromZero ⟨position + 1, code⟩ = .error e r) :
    signed ⟨position, negative :: code⟩ = .error e r := by
  have sign := Reads.bit negative position code
  rw [List.singleton_append, List.length_singleton] at sign
  rw [signed, Failing.bind_of_ok sign, Failing.bind_of_error failed]

end Signed

/-- A signed number is read from its bits, or it is zero and its sign is negative. -/
theorem signed_answers (r : BitReader) :
    (∃ value rest, Bits.isSignedWord value = true ∧ r.rest = Bits.signed value ++ rest ∧
      signed r = .ok value ⟨r.position + (Bits.signed value).length, rest⟩) ∨
    (∃ rest, r.rest = true :: true :: rest ∧ signed r = .ok 0 ⟨r.position + 2, rest⟩) ∨
    ∃ e r', signed r = .error e r' ∧ Bits.NoSigned r.rest e := by
  obtain ⟨position, rest⟩ := r
  cases rest with
  | nil => exact .inr (.inr ⟨.unexpectedEnd position, ⟨position, []⟩, rfl, .inl ⟨rfl, _, rfl⟩⟩)
  | cons negative code =>
      obtain ⟨magnitude, rest, small, split, taken⟩ | ⟨e, r', failed, none⟩ :=
        gammaFromZero_answers ⟨position + 1, code⟩
      · have split : code = Bits.gammaFromZero magnitude ++ rest := split
        by_cases fits : Bits.isSignedWord (Bits.withSign negative magnitude) = true
        · have read := signed_of_fits taken fits
          by_cases zero : negative = true ∧ magnitude = 0
          · obtain ⟨rfl, rfl⟩ := zero
            have one : Bits.gammaFromZero 0 = [true] := by decide
            rw [one] at split read
            exact .inr (.inl ⟨rest, congrArg (true :: ·) split, read⟩)
          · have bits := Bits.signed_withSign zero
            refine .inl ⟨_, rest, fits, ?_, ?_⟩
            · rw [bits, split]
              rfl
            · rw [bits, read, List.length_cons, Nat.add_assoc, Nat.add_comm 1]
        · refine .inr (.inr ⟨_, _, signed_of_not_fits taken fits, ?_⟩)
          exact .inr ⟨negative, code, rfl,
            .inr ⟨magnitude, rest, small, split, Bool.eq_false_iff.mpr fits, _, rfl⟩⟩
      · exact .inr (.inr ⟨e, r', signed_of_error failed, .inr ⟨negative, code, rfl, .inl none⟩⟩)

end Read

namespace Resuming

variable {bytes : List UInt8} {b b' : Buffer}

/-- Between the two places are exactly the bits that are put into an empty sink. -/
def Took (write : Write) (b b' : Buffer) : Prop :=
  ∃ s, write {} = .of (.ok s) ∧ b.view.rest = s.view ++ b'.view.rest ∧
    b'.taken = b.taken + s.written

theorem took_of_appends {write : Write} {bits : List Bool} (appends : write.Appends bits)
    {rest : List Bool} (split : b.view.rest = bits ++ rest)
    (seen : b'.view = ⟨b.view.position + bits.length, rest⟩) : Took write b b' := by
  obtain ⟨s, done, sound, view⟩ := appends {} Sink.sound_empty
  have bits_eq : s.view = bits := by simpa [Sink.view, Bits.unpack, Bits.ofNat] using view
  refine ⟨s, done, ?_, ?_⟩
  · rw [seen, bits_eq, split]
  · rw [← sound.length_view, bits_eq]
    exact congrArg BitReader.position seen

/-- There is a buffer at every place. -/
theorem exists_within (bytes : List UInt8) {position : Nat} (inside : position ≤ 8 * bytes.length) :
    ∃ b : Buffer, b.Within bytes ∧ b.taken = position := by
  induction position with
  | zero => exact ⟨.ofBytes bytes, Buffer.within_ofBytes bytes, rfl⟩
  | succ position ih =>
      obtain ⟨b, w, place⟩ := ih (Nat.le_of_succ_le inside)
      have more : 1 ≤ b.view.rest.length := by
        have := w.taken_add_remaining
        rw [BitReader.remaining] at this
        omega
      have one : Refines (bits 1) (Read.bits 1) (· < 2 ^ 1) := Refines.bits (by decide)
      obtain ⟨b', _, seen, w'⟩ := one.outcome_eq w
      rw [Read.outcome, Read.bits_of_le more] at seen
      refine ⟨b', w', ?_⟩
      rw [← place]
      exact (congrArg BitReader.position seen).symm

/-- Wherever in some bytes one begins to read a code, the bits that are taken are those that are
written for its value, unless this is a zero with a negative sign. If there is no value, the bits
end inside the code, or 64 zeros come first, or a magnitude does not fit a word with its sign. -/
theorem codes_canonical (bytes : List UInt8) :
    (∀ position ≤ 8 * bytes.length, ∃ b : Buffer, b.Within bytes ∧ b.taken = position) ∧
    ∀ b : Buffer, b.Within bytes →
      (∃ answer b', gamma b = some (answer, b') ∧
        Read.gamma.outcome b.view = (answer, b'.view) ∧
        match answer with
        | .ok value => 1 ≤ value ∧ Took (Write.gamma value) b b'
        | .error e => Bits.NoCode b.view.rest e) ∧
      (∃ answer b', gammaFromZero b = some (answer, b') ∧
        Read.gammaFromZero.outcome b.view = (answer, b'.view) ∧
        match answer with
        | .ok value => Took (Write.gammaFromZero value) b b'
        | .error e => Bits.NoCode b.view.rest e) ∧
      ∃ answer b', signed b = some (answer, b') ∧
        Read.signed.outcome b.view = (answer, b'.view) ∧
        match answer with
        | .ok value => Took (Write.signed value) b b' ∨
            value = 0 ∧ b.view.rest = [true, true] ++ b'.view.rest ∧ b'.taken = b.taken + 2
        | .error e => Bits.NoSigned b.view.rest e := by
  refine ⟨fun _ => exists_within bytes, fun b w => ⟨?_, ?_, ?_⟩⟩
  · obtain ⟨b', taken, seen, _⟩ := Refines.gamma.outcome_eq w
    refine ⟨_, b', taken, Prod.ext rfl seen, ?_⟩
    obtain ⟨value, rest, pos, fits, split, read⟩ | ⟨e, r', failed, none⟩ :=
      Read.gamma_answers b.view
    · rw [Read.outcome, read] at seen ⊢
      exact ⟨pos, took_of_appends (.gamma pos fits) split seen.symm⟩
    · rw [Read.outcome, failed]
      exact none
  · obtain ⟨b', taken, seen, _⟩ := Refines.gammaFromZero.outcome_eq w
    refine ⟨_, b', taken, Prod.ext rfl seen, ?_⟩
    obtain ⟨value, rest, fits, split, read⟩ | ⟨e, r', failed, none⟩ :=
      Read.gammaFromZero_answers b.view
    · rw [Read.outcome, read] at seen ⊢
      exact took_of_appends (.gammaFromZero fits) split seen.symm
    · rw [Read.outcome, failed]
      exact none
  · obtain ⟨b', taken, seen, _⟩ := Refines.signed.outcome_eq w
    refine ⟨_, b', taken, Prod.ext rfl seen, ?_⟩
    obtain ⟨value, rest, fits, split, read⟩ | ⟨rest, split, read⟩ | ⟨e, r', failed, none⟩ :=
      Read.signed_answers b.view
    · rw [Read.outcome, read] at seen ⊢
      exact .inl (took_of_appends (.signed fits) split seen.symm)
    · rw [Read.outcome, read] at seen ⊢
      refine .inr ⟨rfl, ?_, (congrArg BitReader.position seen).symm⟩
      rw [← seen]
      exact split
    · rw [Read.outcome, failed]
      exact none

/-- The longest code there is, that of the largest word. -/
def longestCode : List UInt8 := List.replicate 7 0 ++ 128 :: List.replicate 8 255

theorem codes_canonical_longestCode :
    (Buffer.ofBytes longestCode).Within longestCode ∧
      ∃ b', gamma (.ofBytes longestCode) = some (.ok (wordSpace - 1), b') ∧ b'.taken = 127 ∧
        1 ≤ wordSpace - 1 ∧ Took (Write.gamma (wordSpace - 1)) (.ofBytes longestCode) b' := by
  have within := Buffer.within_ofBytes longestCode
  have bits : BitReader.ofBytes longestCode = ⟨0, Bits.gamma (wordSpace - 1) ++ [true]⟩ := by
    decide +kernel
  have width : (Bits.gamma (wordSpace - 1)).length = 127 := by decide +kernel
  have read : Reads Read.gamma (Bits.gamma (wordSpace - 1)) (wordSpace - 1) :=
    Reads.gamma (by decide) (by decide)
  obtain ⟨answer, b', taken, seen, code⟩ := ((codes_canonical longestCode).2 _ within).1
  rw [Buffer.view_ofBytes, bits, Read.outcome, read 0 [true], width] at seen
  obtain ⟨rfl, place⟩ := Prod.mk.inj seen
  exact ⟨within, b', taken, (congrArg BitReader.position place).symm, code⟩

end Resuming

end RunGrammar
