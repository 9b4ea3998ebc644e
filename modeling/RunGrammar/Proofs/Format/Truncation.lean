import Mathlib
import RunGrammar.Proofs.Bits.Truncation
import RunGrammar.Proofs.Format.Exact
import RunGrammar.Proofs.Format.Sorted

/-!
# Stored grammars with bytes missing or too many

The readers of all formats are causal, from the first bit of the header to the
rules: the size of a grammar is asked for only to refuse too many rules. What
was stored of a sound grammar is read to its last bit. So with bytes missing at
the end it is never taken for another grammar, and bytes that follow it do not
matter.
-/

namespace RunGrammar

namespace Header

/-- When the size check goes through on fewer bits it has the same answer, none. -/
theorem causal_checkSize (h : Header) (ruleBits : Nat) : Causal (h.checkSize ruleBits) := by
  intro position front back _ r passed
  rw [checkSize_apply] at passed ⊢
  by_cases short : BitReader.remaining ⟨position, front⟩ < h.size * ruleBits
  · rw [if_pos short]
    exact .inr ⟨_, _, rfl, .inr ⟨_, rfl⟩⟩
  · rw [if_neg short]
    split at passed
    · cases passed
    · cases passed
      exact .inl ⟨front, rfl, rfl⟩

end Header

namespace PlainFormat

theorem causal_readHeader : Causal readHeader := by
  apply Causal.bit.bind
  intro isEmpty
  apply (Causal.word 64).bind
  intro size
  apply (Causal.word 64).bind
  intro terminals
  apply (Causal.bits 32).bind
  intro root
  exact (Causal.word 64).map _

theorem causal_readRule : Causal readRule := by
  apply (Causal.bits 32).bind
  intro first
  apply (Causal.word 64).bind
  intro second
  dsimp only
  cases Rule.ofSigned? (.ofNat first) ((second : Int).bmod wordSpace) with
  | some r => exact Causal.pure r
  | none => exact Causal.position.bind fun _ => Causal.throw _

theorem causal_read : Causal read := by
  apply causal_readHeader.bind
  intro header
  apply (header.causal_checkSize 96).bind
  intro _
  apply (Causal.collect causal_readRule _ _).bind
  intro rules
  exact Causal.ofExcept _

end PlainFormat

namespace FixedFormat

theorem causal_readHeader : Causal readHeader := by
  apply Causal.bit.bind
  intro isEmpty
  apply (Causal.bits 6).bind
  intro width
  apply (Causal.word _).bind
  intro size
  apply (Causal.word _).bind
  intro terminals
  apply (Causal.word _).bind
  intro root
  apply (Causal.word _).bind
  intro blocks
  exact (Causal.bits 6).map _

theorem causal_readRule (width countWidth : Nat) : Causal (readRule width countWidth) := by
  apply Causal.bit.bind
  intro isBlock
  apply (Causal.word width).bind
  intro first
  apply (Causal.ofExcept (symbolOfNat first)).bind
  intro a
  cases isBlock with
  | true =>
      apply (Causal.word countWidth).bind
      intro count
      exact (Causal.ofExcept (countOfNat count)).map _
  | false =>
      apply (Causal.word width).bind
      intro second
      exact (Causal.ofExcept (symbolOfNat second)).map _

theorem causal_read : Causal read := by
  apply causal_readHeader.bind
  intro header
  apply (header.causal_checkSize _).bind
  intro _
  apply (Causal.collect (causal_readRule _ _) _ _).bind
  intro rules
  exact Causal.ofExcept _

end FixedFormat

namespace SortedFormat

theorem causal_readHeader : Causal readHeader := by
  apply Causal.bit.bind
  intro isEmpty
  apply Causal.gammaFromZero.bind
  intro terminals
  apply Causal.gammaFromZero.bind
  intro size
  apply Causal.gammaFromZero.bind
  intro blocks
  exact Causal.gammaFromZero.map _

theorem causal_readField (previous : Int) : Causal (readField previous) := by
  apply Causal.signed.bind
  intro difference
  apply Causal.position.bind
  intro position
  dsimp only
  generalize previous + difference = value
  by_cases word : Bits.isSignedWord value = true
  · by_cases negative : value < 0
    · simp only [word, negative]
      exact Causal.throw _
    · simp only [word, negative]
      exact Causal.pure value
  · simp only [word]
    exact Causal.throw _

theorem causal_readRules (make : Nat → Nat → Except Failure Rule) (count : Nat)
    (previous : Int × Int) (done : Array Rule) :
    Causal (readRules make count previous done) := by
  induction count generalizing previous done with
  | zero => exact Causal.pure done
  | succ count ih =>
      apply (causal_readField previous.1).bind
      intro first
      apply (causal_readField previous.2).bind
      intro second
      apply (Causal.ofExcept (make first.toNat second.toNat)).bind
      intro r
      exact ih (first, second) (done.push r)

theorem causal_read : Causal read := by
  apply causal_readHeader.bind
  intro header
  by_cases more : header.size < header.blocks
  · simp only [more, if_true]
    exact Causal.throw _
  · simp only [more, if_false]
    apply (header.causal_checkSize 4).bind
    intro _
    apply (causal_readRules _ _ _ _).bind
    intro pairs
    apply (causal_readRules _ _ _ _).bind
    intro rules
    exact Causal.ofExcept _

end SortedFormat

/-- The header has nothing to do with recorded lengths. -/
theorem Grammar.SameRules.withRoot_eq {g h : Grammar} (same : Grammar.SameRules g h)
    (field : Symbol) : Header.withRoot field g = Header.withRoot field h := by
  have blocks : g.blocks = h.blocks := by
    rw [Grammar.blocks_eq_countP, Grammar.blocks_eq_countP, same.bareRules]
  simp only [Header.withRoot, Header.ofGrammar, Grammar.isEmpty, same.root, same.size,
    same.terminals, blocks]

namespace Format

/-- The reader of a format. -/
def read : Format → Read Grammar
  | plain => PlainFormat.read
  | fixed => FixedFormat.read
  | sorted => SortedFormat.read

theorem decode_eq (f : Format) (bytes : List UInt8) : f.decode bytes = f.read.run bytes := by
  cases f <;> rfl

theorem causal_read (f : Format) : Causal f.read := by
  cases f with
  | plain => exact PlainFormat.causal_read
  | fixed => exact FixedFormat.causal_read
  | sorted => exact SortedFormat.causal_read

variable {g : Grammar}

/-- What is stored of a sound grammar is read to its last bit, whatever lengths are recorded. -/
theorem Writes.exists_reads {f : Format} {stored : List UInt8} (writes : f.Writes g stored)
    (valid : g.validate = .ok ()) (fits : g.terminals + g.size ≤ idSpace) :
    ∃ bits h, stored = Bits.pack bits ∧ Reads f.read bits h := by
  obtain ⟨field, kept, rfl⟩ := writes
  obtain ⟨o, known⟩ := Grammar.validate_eq_ok_iff.mp valid
  have same := Grammar.sameRules_computeLengths o
  have header := same.withRoot_eq field
  have o' := same.symm.ordered o
  have valid' : g.computeLengths.validate = .ok () := by
    refine Grammar.validate_eq_ok_iff.mpr ⟨o', fun v hv => ?_⟩
    show v.toNat < g.computeLengths.terminals + g.computeLengths.size
    rw [same.terminals, same.size]
    exact known v (same.root ▸ hv)
  have fits' : g.computeLengths.terminals + g.computeLengths.size ≤ idSpace := by
    rwa [same.terminals, same.size]
  have computed : g.computeLengths.computeLengths = g.computeLengths :=
    (Grammar.computeLengths_eq_self_iff o').mpr (Grammar.sized_computeLengths o)
  have kept' : ∀ v, g.computeLengths.root = some v → field = v := same.root ▸ kept
  cases f with
  | plain =>
      have bits : PlainFormat.bitsWithRoot field g.computeLengths =
          PlainFormat.bitsWithRoot field g := by
        rw [PlainFormat.bitsWithRoot, PlainFormat.bitsWithRoot, header, same.bareRules]
      exact ⟨_, _, rfl, bits ▸ PlainFormat.reads_bitsWithRoot valid' fits' computed kept'⟩
  | fixed =>
      have width : FixedFormat.idWidth g.computeLengths = FixedFormat.idWidth g := by
        rw [FixedFormat.idWidth, FixedFormat.idWidth, same.terminals, same.size]
      have bits : FixedFormat.bitsWithRoot field g.computeLengths =
          FixedFormat.bitsWithRoot field g := by
        rw [FixedFormat.bitsWithRoot, FixedFormat.bitsWithRoot, FixedFormat.countWidth,
          FixedFormat.countWidth, header, width, same.bareRules]
      exact ⟨_, _, rfl, bits ▸ FixedFormat.reads_bitsWithRoot valid' fits' computed kept'⟩
  | sorted =>
      obtain ⟨h, made, _⟩ := SortedFormat.ofUnordered_storedRules valid fits
      exact ⟨_, h, rfl, SortedFormat.reads_read fits made⟩

/-- Every grammar takes at least the bit that tells whether it is empty. -/
theorem encode_ne_nil (f : Format) (g : Grammar) : f.encode g ≠ [] := by
  cases f with
  | plain => exact Bits.pack_ne_nil (List.cons_ne_nil _ _)
  | fixed => exact Bits.pack_ne_nil (List.cons_ne_nil _ _)
  | sorted => exact Bits.pack_ne_nil (List.cons_ne_nil _ _)

/-- In every format, what is stored of a sound grammar ends where it says. If any bytes are missing
at the end, and if it is only the last one, reading fails because the bits end too early or cannot
be right. All of the bytes are read back as a grammar, and it is the same one whatever follows
them. For a grammar without a root this holds whatever stands in the field of the root. -/
theorem decode_self_delimiting (f : Format) (valid : g.validate = .ok ())
    (fits : g.terminals + g.size ≤ idSpace) :
    f.Writes g (f.encode g) ∧ ∀ stored, f.Writes g stored →
      (∀ bytes, bytes <+: stored → bytes ≠ stored →
        ∃ e, f.decode bytes = .error e ∧
          ((∃ position, e = .unexpectedEnd position) ∨ ∃ defect, e = .malformed defect)) ∧
      (∃ h, f.decode stored = .ok h) ∧
      ∀ extra, f.decode (stored ++ extra) = f.decode stored := by
  refine ⟨f.writes_encode g, ?_⟩
  intro stored writes
  obtain ⟨bits, h, rfl, reads⟩ := writes.exists_reads valid fits
  simp only [decode_eq]
  refine ⟨fun bytes front proper => ?_, ⟨h, reads.run_pack⟩, fun extra => ?_⟩
  · exact reads.run_of_missing f.causal_read front proper
  · rw [reads.run_pack_append, reads.run_pack]

/-- A grammar whose root was taken away. -/
def emptied : Grammar where
  terminals := 4

/-- Two blocks and a pair in the shortest format, and an emptied grammar with the root that it had
before. -/
theorem decode_self_delimiting_saturated :
    saturated.validate = .ok () ∧ saturated.terminals + saturated.size ≤ idSpace ∧
      (sorted.encode saturated).dropLast ≠ sorted.encode saturated ∧
      (∃ e, sorted.decode (sorted.encode saturated).dropLast = .error e ∧
        ((∃ position, e = .unexpectedEnd position) ∨ ∃ defect, e = .malformed defect)) ∧
      (∃ h, sorted.decode (sorted.encode saturated) = .ok h) ∧
      sorted.decode (sorted.encode saturated ++ [255]) =
        sorted.decode (sorted.encode saturated) ∧
      emptied.validate = .ok () ∧
      (∃ h, fixed.decode (FixedFormat.encodeWithRoot 3 emptied) = .ok h) ∧
      ∀ extra, fixed.decode (FixedFormat.encodeWithRoot 3 emptied ++ extra) =
        fixed.decode (FixedFormat.encodeWithRoot 3 emptied) := by
  have valid : saturated.validate = .ok () := by rfl
  have fits : saturated.terminals + saturated.size ≤ idSpace := by decide
  have cut : (sorted.encode saturated).dropLast ≠ sorted.encode saturated := fun same =>
    absurd (congrArg List.length same) (by
      have := List.length_pos_iff.mpr (encode_ne_nil sorted saturated)
      rw [List.length_dropLast]
      omega)
  obtain ⟨writes, ends⟩ := decode_self_delimiting sorted valid fits
  obtain ⟨missing, whole, behind⟩ := ends _ writes
  have valid' : emptied.validate = .ok () := by rfl
  have writes' : fixed.Writes emptied (FixedFormat.encodeWithRoot 3 emptied) := ⟨3, nofun, rfl⟩
  obtain ⟨-, ends'⟩ := decode_self_delimiting fixed valid' (by decide)
  obtain ⟨-, whole', behind'⟩ := ends' _ writes'
  exact ⟨valid, fits, cut, missing _ (List.dropLast_prefix _) cut, whole, behind _, valid', whole',
    behind'⟩

end Format

end RunGrammar
