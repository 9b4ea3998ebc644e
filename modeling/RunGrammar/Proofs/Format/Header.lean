import Mathlib
import RunGrammar.Proofs.Bits.Reading
import RunGrammar.Proofs.Grammar.Lengths

/-!
# Headers of stored grammars

What the header of a grammar declares holds of the grammar: the checks of the
decoders pass on it, and the numbers in it fit their fields. A decoder checks
the size before it reads the rules, so that check is stated together with the
reading of what follows.
-/

namespace RunGrammar

theorem lt_two_pow_bitWidth (value : Nat) : value < 2 ^ bitWidth value := Nat.lt_log2_self

theorem bitWidth_le {value width : Nat} (h : value < 2 ^ (width + 1)) :
    bitWidth value ≤ width + 1 := by
  unfold bitWidth
  by_cases zero : value = 0
  · simp [zero]
  · exact (Nat.log2_lt zero).mpr h

theorem symbolOfNat_toNat (v : Symbol) : symbolOfNat v.toNat = .ok v := by
  have : v.toNat < idSpace := v.toNat_lt_idSpace
  simp [symbolOfNat, this]

theorem countOfNat_toNat (n : UInt32) : countOfNat n.toNat = .ok n := by
  have : n.toNat < idSpace := n.toNat_lt
  simp [countOfNat, this]

/-- The root, if there is one, is what stands in its field. -/
theorem Grammar.getD_root {g : Grammar} (v : Symbol) (found : g.root = some v) :
    g.root.getD 0 = v := by
  rw [found, Option.getD_some]

namespace Header

variable {g : Grammar}

/-- Without a root the field is not looked at, and else it holds the root. -/
theorem rootSymbol_withRoot {field : Symbol} (kept : ∀ v, g.root = some v → field = v) :
    (withRoot field g).rootSymbol = .ok g.root := by
  cases found : g.root with
  | none => simp [rootSymbol, withRoot, ofGrammar, Grammar.isEmpty, found]
  | some v =>
      obtain rfl := kept v found
      have : field.toNat < idSpace := field.toNat_lt_idSpace
      simp [rootSymbol, withRoot, ofGrammar, Grammar.isEmpty, found, this]

/-- An empty grammar is stored with zero in the field of the root. -/
theorem ofGrammar_eq_withRoot (g : Grammar) : ofGrammar g = withRoot (g.root.getD 0) g := by
  have root : (ofGrammar g).root = (g.root.getD 0).toNat := by
    cases found : g.root with
    | none => simp [ofGrammar, found]
    | some v => simp [ofGrammar, found]
  rw [withRoot, ← root]

/-- What a decoder has to know from the header to build this grammar. -/
structure Describes (h : Header) (g : Grammar) : Prop where
  size : h.size = g.size
  terminals : h.terminals = g.terminals
  blocks : h.blocks = g.blocks
  root : h.rootSymbol = .ok g.root

theorem describes_withRoot {field : Symbol} (kept : ∀ v, g.root = some v → field = v) :
    (withRoot field g).Describes g :=
  ⟨rfl, rfl, rfl, rootSymbol_withRoot kept⟩

/-- The checks at the end of a decoder are passed, and the constructor has the last word. -/
theorem Describes.rebuild {h : Header} (describes : h.Describes g) :
    (do
      h.checkBlocks g.bareRules
      Grammar.ofRules h.terminals g.bareRules (← h.rootSymbol)) =
      Grammar.ofRules g.terminals g.bareRules g.root := by
  have number : h.checkBlocks g.bareRules = .ok () := by
    simp [checkBlocks, describes.blocks, Grammar.blocks_eq_countP]
  rw [number, describes.root, describes.terminals]
  rfl

theorem checkSize_apply (h : Header) (ruleBits : Nat) (r : BitReader) :
    h.checkSize ruleBits r =
      if r.remaining < h.size * ruleBits then
        .error (.malformed (.tooManyRules h.size r.remaining)) r
      else .ok () r := by
  by_cases short : r.remaining < h.size * ruleBits <;>
    simp [checkSize, short, bind, EStateM.bind, get, getThe, MonadStateOf.get, EStateM.get, pure,
      EStateM.pure, throw, throwThe, MonadExceptOf.throw, EStateM.throw]

/-- A header does not declare more rules than the bits that follow can hold. -/
theorem reads_checkSize {α : Type} {read : Read α} {bits : List Bool} {a : α} {h : Header}
    {ruleBits : Nat} (body : Reads read bits a) (enough : h.size * ruleBits ≤ bits.length) :
    Reads (h.checkSize ruleBits >>= fun _ => read) bits a := by
  intro position rest
  have room : ¬ (BitReader.remaining ⟨position, bits ++ rest⟩ < h.size * ruleBits) := by
    simp only [BitReader.remaining, List.length_append]
    omega
  have passed := (h.checkSize_apply ruleBits ⟨position, bits ++ rest⟩).trans (if_neg room)
  exact (Failing.bind_of_ok passed).trans (body position rest)

end Header

end RunGrammar
