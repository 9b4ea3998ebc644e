import Mathlib
import RunGrammar.Proofs.Format.Exact
import RunGrammar.Proofs.Format.Sorted
import RunGrammar.Proofs.Grammar.Derivation

/-!
# What every format keeps

Whatever the format, a sound grammar comes back with other symbols for its rules
at most, and so with the same text. The first two formats do not even rename.
-/

namespace RunGrammar

/-- What a grammar needs to come back from storage. -/
structure Grammar.Storable (g : Grammar) : Prop where
  valid : g.validate = .ok ()
  fits : g.terminals + g.size ≤ idSpace
  sized : g.Sized

namespace Grammar.Storable

variable {g : Grammar}

theorem ordered (storable : g.Storable) : g.Ordered :=
  (validate_eq_ok_iff.mp storable.valid).1

theorem known (storable : g.Storable) : ∀ v, g.root = some v → g.Known v :=
  (validate_eq_ok_iff.mp storable.valid).2

/-- The lengths on record are those that a reader works out. -/
theorem computed (storable : g.Storable) : g.computeLengths = g :=
  (computeLengths_eq_self_iff storable.ordered).mpr storable.sized

end Grammar.Storable

namespace Format

variable {g : Grammar}

/-- What comes back from a format is the grammar up to renumbering, and can be stored again. -/
theorem Writes.decode {f : Format} {stored : List UInt8} (writes : f.Writes g stored)
    (storable : g.Storable) :
    ∃ h σ, f.decode stored = .ok h ∧ Grammar.Renumbers σ g h ∧ h.Storable := by
  obtain ⟨field, kept, rfl⟩ := writes
  have ⟨valid, fits, _⟩ := storable
  cases f with
  | plain =>
      have exact := PlainFormat.reads_bitsWithRoot valid fits storable.computed kept
      exact ⟨g, _, exact.run_pack, .refl g, storable⟩
  | fixed =>
      have exact := FixedFormat.reads_bitsWithRoot valid fits storable.computed kept
      exact ⟨g, _, exact.run_pack, .refl g, storable⟩
  | sorted =>
      obtain ⟨σ, stored⟩ := SortedFormat.renumbers_storedGrammar fits
      obtain ⟨h, made, settled⟩ := SortedFormat.ofUnordered_storedRules valid fits
      obtain ⟨τ, ordered⟩ := settled.renumbers
      have ren : Grammar.Renumbers (σ.trans τ) g h := stored.trans ordered
      have fits' : h.terminals + h.size ≤ idSpace := by
        simpa [ren.terminals, ren.size] using fits
      exact ⟨h, _, (SortedFormat.reads_read fits made).run_pack, ren,
        ⟨settled.valid, fits', settled.sized⟩⟩

/-- Every format keeps the text. -/
theorem derivedText_decode_encode (f : Format) (storable : g.Storable) :
    ∃ h, f.decode (f.encode g) = .ok h ∧ h.Storable ∧ h.derivedText = g.derivedText := by
  obtain ⟨h, σ, decoded, ren, storable'⟩ := (f.writes_encode g).decode storable
  refine ⟨h, decoded, storable', ?_⟩
  calc
    h.derivedText = h.root.toList.flatMap h.expand := Grammar.derivedText_eq storable'.valid
    _ = g.root.toList.flatMap g.expand :=
      ren.flatMap_expand_root storable.ordered storable'.ordered storable.known
    _ = g.derivedText := (Grammar.derivedText_eq storable.valid).symm

end Format

end RunGrammar
