import Mathlib
import RunGrammar.Proofs.Bits.Reading

/-!
# Reading codes

A gamma code announces its width, so it is read back whatever follows it. All
positive words have one. A signed number keeps its sign apart from the code of
its magnitude, and every number that fits a word in two's complement is read
back as it was.
-/

namespace RunGrammar

namespace Bits

theorem length_gamma_pos (value : Nat) : 1 ≤ (gamma value).length := by
  simp only [gamma, List.length_append, List.length_cons]
  omega

/-- Every signed number takes at least two bits. -/
theorem two_le_length_signed (value : Int) : 2 ≤ (signed value).length := by
  have code := length_gamma_pos (min (value.natAbs + 1) (wordSpace - 1))
  rw [signed, gammaFromZero, List.length_cons]
  omega

/-- Behind its leading bit a positive number has as many bits as its logarithm says. -/
theorem two_pow_log2_add_mod {value : Nat} (pos : value ≠ 0) :
    2 ^ value.log2 + value % 2 ^ value.log2 = value := by
  have low : 2 ^ value.log2 ≤ value := Nat.log2_self_le pos
  have high : value < 2 * 2 ^ value.log2 := by
    have := Nat.lt_log2_self (n := value)
    rwa [Nat.pow_succ'] at this
  have rest : value % 2 ^ value.log2 = value - 2 ^ value.log2 := by
    rw [Nat.mod_eq_sub_mod low, Nat.mod_eq_of_lt (by omega)]
  omega

theorem natAbs_lt_of_isSignedWord {value : Int} (fits : isSignedWord value = true) :
    value.natAbs < wordSpace - 1 := by
  have bounds := isSignedWord_iff.mp fits
  have space : wordSpace = 2 ^ 64 := rfl
  omega

end Bits

namespace Reads

theorem zeros {count limit : Nat} (h : count < limit) :
    Reads (Read.zeros limit) (List.replicate count false ++ [true]) count := by
  induction count generalizing limit with
  | zero =>
      obtain ⟨limit, rfl⟩ : ∃ k, limit = k + 1 := ⟨limit - 1, by omega⟩
      exact (bit true).bind_nil (Reads.pure 0)
  | succ count ih =>
      obtain ⟨limit, rfl⟩ : ∃ k, limit = k + 1 := ⟨limit - 1, by omega⟩
      exact (bit false).bind (ih (Nat.lt_of_succ_lt_succ h)).map

theorem gamma {value : Nat} (pos : value ≠ 0) (fits : value < 2 ^ 64) :
    Reads Read.gamma (Bits.gamma value) value := by
  have width : value.log2 < 64 := (Nat.log2_lt pos).mpr fits
  have low := word_ofNat value.log2 value width.le
  have code := (zeros width).bind low.map (f := fun width => do
    let low ← Read.word width
    return 1 <<< width + low)
  rwa [List.append_assoc, List.singleton_append, Nat.one_shiftLeft,
    Bits.two_pow_log2_add_mod pos] at code

theorem gammaFromZero {value : Nat} (fits : value < wordSpace - 1) :
    Reads Read.gammaFromZero (Bits.gammaFromZero value) value := by
  have space : wordSpace = 2 ^ 64 := rfl
  have next : min (value + 1) (wordSpace - 1) = value + 1 := by omega
  have code : Reads Read.gamma (Bits.gamma (value + 1)) (value + 1) :=
    gamma (by omega) (by omega)
  have shifted := code.map (f := fun n => n - 1)
  rwa [Nat.add_sub_cancel, ← next] at shifted

theorem signed {value : Int} (fits : Bits.isSignedWord value = true) :
    Reads Read.signed (Bits.signed value) value := by
  have sign : (if decide (value < 0) = true then -(value.natAbs : Int) else value.natAbs) =
      value := by
    by_cases negative : value < 0
    · rw [if_pos (decide_eq_true negative)]
      omega
    · rw [if_neg (by simpa using negative)]
      omega
  apply (bit (decide (value < 0))).bind
  apply (gammaFromZero (Bits.natAbs_lt_of_isSignedWord fits)).bind_nil
  simp only [sign, fits, if_true]
  exact Reads.pure value

end Reads

end RunGrammar
