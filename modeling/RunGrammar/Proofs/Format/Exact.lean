import Mathlib
import RunGrammar.Format.Choice
import RunGrammar.Proofs.Format.Header
import RunGrammar.Proofs.Text.Largest

/-!
# The formats that keep the order of the rules

Reading what the plain and the fixed-width format wrote gives an equal grammar.
Both readers are followed field by field: a field that is wide enough gives its
value back, the size check leaves genuine rules alone, and the lengths, which
are not stored, are determined by the rules.
-/

namespace RunGrammar

namespace Rule

theorem ofSigned?_natCast (a b : Symbol) : ofSigned? a b.toNat = some (pair a b) := by
  have small : (b.toNat : Int) < idSpace := by exact_mod_cast b.toNat_lt_idSpace
  rw [ofSigned?, if_pos (Int.natCast_nonneg _), if_pos small, Int.toNat_natCast,
    UInt32.ofNat_toNat]

theorem ofSigned?_negSucc (a : Symbol) (n : UInt32) :
    ofSigned? a (-(n.toNat : Int) - 1) = some (block a n) := by
  have small : n.toNat < idSpace := n.toNat_lt
  have count : -(-(n.toNat : Int) - 1 + 1) = n.toNat := by omega
  rw [ofSigned?, if_neg (by omega)]
  simp only [count]
  rw [if_pos (by exact_mod_cast small), Int.toNat_natCast, UInt32.ofNat_toNat]

/-- The signed form tells the two shapes of rules apart. -/
theorem ofSigned?_signedSecond (r : Rule) : ofSigned? r.first r.signedSecond = some r := by
  cases r with
  | pair a b => exact ofSigned?_natCast a b
  | block a n => exact ofSigned?_negSucc a n

theorem signedSecond_bounds (r : Rule) :
    -(2 ^ 32 : Int) ≤ r.signedSecond ∧ r.signedSecond < 2 ^ 32 := by
  cases r with
  | pair a b =>
      have := b.toNat_lt
      simp only [signedSecond]
      omega
  | block a n =>
      have := n.toNat_lt
      simp only [signedSecond]
      omega

/-- A signed second field survives two's complement with 64 bits. -/
theorem bmod_signedSecond (r : Rule) :
    (((r.signedSecond % wordSpace).toNat : Nat) : Int).bmod wordSpace = r.signedSecond := by
  obtain ⟨low, high⟩ := r.signedSecond_bounds
  have nonneg : 0 ≤ r.signedSecond % (wordSpace : Int) := Int.emod_nonneg _ (by decide)
  rw [Int.toNat_of_nonneg nonneg, Int.emod_bmod]
  apply Int.bmod_eq_of_le_mul_two
  · have : (wordSpace : Int) = 2 ^ 64 := rfl
    omega
  · have : (wordSpace : Int) = 2 ^ 64 := rfl
    omega

end Rule

namespace PlainFormat

variable {g : Grammar}

theorem reads_readHeader {h : Header} (size : h.size < 2 ^ 64) (terminals : h.terminals < 2 ^ 64)
    (root : h.root < 2 ^ 32) (blocks : h.blocks < 2 ^ 64) :
    Reads readHeader (headerBits h) h := by
  have fields := (Reads.bit h.isEmpty).bind
    (f := fun isEmpty => do
      let size ← Read.word 64
      let terminals ← Read.word 64
      let root ← Read.bits 32
      let blocks ← Read.word 64
      return ({ isEmpty, size, terminals, root, blocks } : Header)) <|
    (Reads.word_of_lt (Nat.le_refl 64) size).bind <|
    (Reads.word_of_lt (Nat.le_refl 64) terminals).bind <|
    (Reads.bits_of_lt root).bind <|
    (Reads.word_of_lt (Nat.le_refl 64) blocks).map
  simpa [headerBits, readHeader] using fields

theorem reads_readRule (r : Rule) : Reads readRule (ruleBits r) r := by
  have second : (r.signedSecond % wordSpace).toNat < 2 ^ 64 := by
    have : r.signedSecond % (wordSpace : Int) < wordSpace := Int.emod_lt_of_pos _ (by decide)
    have : (wordSpace : Int) = 2 ^ 64 := rfl
    omega
  apply (Reads.bits_of_lt r.first.toNat_lt).bind
  apply (Reads.word_of_lt (Nat.le_refl 64) second).bind_nil
  simp only [Rule.bmod_signedSecond, UInt32.ofNat_toNat, Rule.ofSigned?_signedSecond]
  exact Reads.pure r

theorem length_ruleBits (r : Rule) : (ruleBits r).length = 96 := by
  simp [ruleBits]

/-- The size check does not reject the rules of a grammar. -/
theorem size_mul_le_length (g : Grammar) : g.size * 96 ≤ (g.bareRules.flatMap ruleBits).length := by
  simp [List.length_flatMap, length_ruleBits, Grammar.length_bareRules]

theorem bits_eq_bitsWithRoot (g : Grammar) : bits g = bitsWithRoot (g.root.getD 0) g := by
  rw [bits, bitsWithRoot, Header.ofGrammar_eq_withRoot]

/-- Without a root, whatever is in its field is passed over. -/
theorem reads_bitsWithRoot (valid : g.validate = .ok ()) (fits : g.terminals + g.size ≤ idSpace)
    (computed : g.computeLengths = g) {field : Symbol} (kept : ∀ v, g.root = some v → field = v) :
    Reads read (bitsWithRoot field g) g := by
  have space : idSpace = 2 ^ 32 := rfl
  have blocks := Grammar.blocks_le_size g
  have describes := Header.describes_withRoot kept
  have header : Reads readHeader (headerBits (.withRoot field g)) (.withRoot field g) := by
    apply reads_readHeader
    · show g.size < 2 ^ 64
      omega
    · show g.terminals < 2 ^ 64
      omega
    · exact field.toNat_lt
    · show g.blocks < 2 ^ 64
      omega
  have count : g.bareRules.length = (Header.withRoot field g).size := g.length_bareRules
  have rules := Reads.collect g.bareRules (fun r _ => reads_readRule r) #[]
  rw [count] at rules
  apply header.bind
  refine Header.reads_checkSize ?_ (size_mul_le_length g)
  apply rules.bind_nil
  rw [List.append_toArray, List.nil_append]
  exact Reads.ofExcept (describes.rebuild.trans (Grammar.ofRules_bareRules valid fits computed))

theorem reads_read (valid : g.validate = .ok ()) (fits : g.terminals + g.size ≤ idSpace)
    (computed : g.computeLengths = g) : Reads read (bits g) g := by
  rw [bits_eq_bitsWithRoot]
  exact reads_bitsWithRoot valid fits computed Grammar.getD_root

end PlainFormat

namespace FixedFormat

variable {g : Grammar} {ids counts : Nat}

/-- The operands and the number of copies fit into fields of these widths. -/
def RuleFits (ids counts : Nat) (r : Rule) : Prop :=
  (∀ v ∈ r.operands, v.toNat < 2 ^ ids) ∧ copies r < 2 ^ counts

theorem reads_readRule (hw : ids ≤ 64) (hc : counts ≤ 64) {r : Rule}
    (fits : RuleFits ids counts r) : Reads (readRule ids counts) (ruleBits ids counts r) r := by
  obtain ⟨operands, count⟩ := fits
  cases r with
  | pair a b =>
      have first : a.toNat < 2 ^ ids := operands a Rule.left_mem_operands
      have second : b.toNat < 2 ^ ids := operands b Rule.right_mem_operands
      apply (Reads.bit false).bind
      apply (Reads.word_of_lt hw first).bind
      apply (Reads.ofExcept (symbolOfNat_toNat a)).bind
      rw [if_neg (by decide)]
      apply (Reads.word_of_lt hw second).bind_nil
      exact (Reads.ofExcept (symbolOfNat_toNat b)).map
  | block a n =>
      have first : a.toNat < 2 ^ ids := operands a Rule.copied_mem_operands
      apply (Reads.bit true).bind
      apply (Reads.word_of_lt hw first).bind
      apply (Reads.ofExcept (symbolOfNat_toNat a)).bind
      rw [if_pos rfl]
      apply (Reads.word_of_lt hc count).bind_nil
      exact (Reads.ofExcept (countOfNat_toNat n)).map

/-- What a decoder knows after a header with this symbol in the field of the root. -/
def wideHeader (field : Symbol) (g : Grammar) : WideHeader :=
  { Header.ofGrammar g with
    root := field.toNat % 2 ^ idWidth g, width := idWidth g, countWidth := countWidth g }

theorem idWidth_le (fits : g.terminals + g.size ≤ idSpace) : idWidth g ≤ 33 :=
  bitWidth_le (Nat.lt_of_le_of_lt fits (by decide))

theorem copies_lt (r : Rule) : copies r < idSpace := by
  cases r with
  | pair a b => exact Nat.zero_lt_of_lt (by decide : 0 < idSpace)
  | block a n => exact n.toNat_lt

theorem countWidth_le (g : Grammar) : countWidth g ≤ 32 := by
  apply bitWidth_le
  have most := (foldl_max_le_iff copies g.bareRules 0 (idSpace - 1)).mpr
    ⟨Nat.zero_le _, fun r _ => Nat.le_sub_one_of_lt (copies_lt r)⟩
  exact Nat.lt_of_le_of_lt most (by decide)

/-- Both widths are chosen so that every rule of the grammar fits. -/
theorem ruleFits_of_mem (o : g.Ordered) {r : Rule} (hr : r ∈ g.bareRules) :
    RuleFits (idWidth g) (countWidth g) r := by
  constructor
  · intro v hv
    exact Nat.lt_trans (o.known_of_mem hr hv) (lt_two_pow_bitWidth _)
  · exact Nat.lt_of_le_of_lt (le_foldl_max copies 0 hr) (lt_two_pow_bitWidth _)

theorem reads_readHeader (fits : g.terminals + g.size ≤ idSpace) (field : Symbol) :
    Reads readHeader (headerBits (idWidth g) (countWidth g) (.withRoot field g))
      (wideHeader field g) := by
  have most : g.terminals + g.size < 2 ^ idWidth g := lt_two_pow_bitWidth _
  have hw : idWidth g ≤ 64 := Nat.le_trans (idWidth_le fits) (by decide)
  have stored : idWidth g - 1 < 2 ^ 6 := by
    have := idWidth_le fits
    omega
  have storedCount : countWidth g - 1 < 2 ^ 6 := by
    have := countWidth_le g
    omega
  have size : g.size < 2 ^ idWidth g := by omega
  have terminals : g.terminals < 2 ^ idWidth g := by omega
  have blocks : g.blocks < 2 ^ idWidth g := by
    have := Grammar.blocks_le_size g
    omega
  have width : idWidth g - 1 + 1 = idWidth g := rfl
  have count : countWidth g - 1 + 1 = countWidth g := rfl
  simp only [headerBits, List.cons_append, List.append_assoc]
  apply (Reads.bit g.isEmpty).bind
  apply (Reads.bits_of_lt stored).bind
  simp only [width]
  apply (Reads.word_of_lt hw size).bind
  apply (Reads.word_of_lt hw terminals).bind
  apply (Reads.word_ofNat _ field.toNat hw).bind
  apply (Reads.word_of_lt hw blocks).bind
  exact (Reads.bits_of_lt storedCount).map

/-- The root of a sound grammar fits into its field. -/
theorem describes_wideHeader (valid : g.validate = .ok ()) {field : Symbol}
    (kept : ∀ v, g.root = some v → field = v) : (wideHeader field g).Describes g := by
  refine ⟨rfl, rfl, rfl, ?_⟩
  cases found : g.root with
  | none => simp [Header.rootSymbol, wideHeader, Header.ofGrammar, Grammar.isEmpty, found]
  | some v =>
      obtain rfl := kept v found
      have known := (Grammar.validate_eq_ok_iff.mp valid).2 field found
      have narrow : field.toNat < 2 ^ idWidth g := Nat.lt_trans known (lt_two_pow_bitWidth _)
      have small : field.toNat < idSpace := field.toNat_lt_idSpace
      simp [Header.rootSymbol, wideHeader, Header.ofGrammar, Grammar.isEmpty, found,
        Nat.mod_eq_of_lt narrow, small]

theorem le_length_ruleBits (ids counts : Nat) (r : Rule) :
    1 + ids + min ids counts ≤ (ruleBits ids counts r).length := by
  cases r with
  | pair a b =>
      simp [ruleBits]
      omega
  | block a n =>
      simp [ruleBits]
      omega

theorem size_mul_le_length (g : Grammar) (ids counts : Nat) :
    g.size * (1 + ids + min ids counts) ≤ (g.bareRules.flatMap (ruleBits ids counts)).length := by
  have each : ∀ n ∈ g.bareRules.map fun r => (ruleBits ids counts r).length,
      1 + ids + min ids counts ≤ n := by
    simpa using fun r _ => le_length_ruleBits ids counts r
  have total := List.card_nsmul_le_sum _ _ each
  rwa [List.length_map, g.length_bareRules, smul_eq_mul, ← List.length_flatMap] at total

theorem bits_eq_bitsWithRoot (g : Grammar) : bits g = bitsWithRoot (g.root.getD 0) g := by
  rw [bits, bitsWithRoot, Header.ofGrammar_eq_withRoot]

theorem reads_bitsWithRoot (valid : g.validate = .ok ()) (fits : g.terminals + g.size ≤ idSpace)
    (computed : g.computeLengths = g) {field : Symbol} (kept : ∀ v, g.root = some v → field = v) :
    Reads read (bitsWithRoot field g) g := by
  have o := (Grammar.validate_eq_ok_iff.mp valid).1
  have hw : idWidth g ≤ 64 := Nat.le_trans (idWidth_le fits) (by decide)
  have hc : countWidth g ≤ 64 := Nat.le_trans (countWidth_le g) (by decide)
  have describes := describes_wideHeader valid kept
  have count : g.bareRules.length = (wideHeader field g).size := g.length_bareRules
  have rules := Reads.collect g.bareRules
    (fun r hr => reads_readRule hw hc (ruleFits_of_mem o hr)) #[]
  rw [count] at rules
  apply (reads_readHeader fits field).bind
  refine Header.reads_checkSize ?_ (size_mul_le_length g (idWidth g) (countWidth g))
  apply rules.bind_nil
  rw [List.append_toArray, List.nil_append]
  exact Reads.ofExcept (describes.rebuild.trans (Grammar.ofRules_bareRules valid fits computed))

theorem reads_read (valid : g.validate = .ok ()) (fits : g.terminals + g.size ≤ idSpace)
    (computed : g.computeLengths = g) : Reads read (bits g) g := by
  rw [bits_eq_bitsWithRoot]
  exact reads_bitsWithRoot valid fits computed Grammar.getD_root

end FixedFormat

namespace Format

/-- What a format may hold of a grammar. Without a root, any symbol may stand in its field. -/
def Writes (f : Format) (g : Grammar) (bytes : List UInt8) : Prop :=
  ∃ field : Symbol, (∀ v, g.root = some v → field = v) ∧ bytes = f.encodeWithRoot field g

theorem writes_encode (f : Format) (g : Grammar) : f.Writes g (f.encode g) := by
  refine ⟨g.root.getD 0, Grammar.getD_root, ?_⟩
  cases f with
  | plain => exact congrArg Bits.pack (PlainFormat.bits_eq_bitsWithRoot g)
  | fixed => exact congrArg Bits.pack (FixedFormat.bits_eq_bitsWithRoot g)
  | sorted => rfl

end Format

/-- A sound grammar with its own lengths comes back from the plain and from the fixed-width format
as it was: the same rules in the same order, the same lengths, and the same root. -/
theorem exact_decode_encode {g : Grammar} (valid : g.validate = .ok ())
    (fits : g.terminals + g.size ≤ idSpace) (computed : g.computeLengths = g) :
    Format.plain.decode (Format.plain.encode g) = .ok g ∧
      Format.fixed.decode (Format.fixed.encode g) = .ok g :=
  ⟨(PlainFormat.reads_read valid fits computed).run_pack,
    (FixedFormat.reads_read valid fits computed).run_pack⟩

theorem exact_decode_encode_saturated :
    saturated.validate = .ok () ∧ saturated.terminals + saturated.size ≤ idSpace ∧
      saturated.computeLengths = saturated ∧
      Format.plain.decode (Format.plain.encode saturated) = .ok saturated ∧
      Format.fixed.decode (Format.fixed.encode saturated) = .ok saturated := by
  have valid : saturated.validate = .ok () := by rfl
  have fits : saturated.terminals + saturated.size ≤ idSpace := by decide
  have computed : saturated.computeLengths = saturated := by decide
  exact ⟨valid, fits, computed, exact_decode_encode valid fits computed⟩

end RunGrammar
