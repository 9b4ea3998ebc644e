import Mathlib
import RunGrammar.Proofs.Format.Exact
import RunGrammar.Proofs.Grammar.Unordered

/-!
# Storing grammars that are not sound

The plain format asks nothing of a grammar. Every field is wide enough for
whatever stands in it, so all rules come back as they were, numbers of copies
that no block may have among them, and neither the size nor the number of blocks
in the header gives the reader a reason to stop. It is the constructor at the end
of the reader that decides: what it answers on the rules and the root of the
grammar is the answer to the stored bytes.

`Reads` is about actions that succeed. Here the last step may also fail, so an
action is followed to whatever end it comes (`Ends`).
-/

namespace RunGrammar

/-- On these bits the action comes to this end, whatever follows them. -/
def Ends {α : Type} (read : Read α) (bits : List Bool) (x : Except Failure α) : Prop :=
  ∀ position rest, ∃ r, read ⟨position, bits ++ rest⟩ =
    match x with
    | .ok a => .ok a r
    | .error e => .error e r

namespace Ends

variable {α β : Type} {read : Read α} {f : α → Read β} {bits front back : List Bool} {a : α}

/-- A result that does not depend on bits is the end. -/
theorem ofExcept (x : Except Failure α) : Ends (Read.ofExcept x) [] x := by
  intro position rest
  cases x with
  | ok a => exact ⟨_, rfl⟩
  | error e => exact ⟨_, rfl⟩

/-- Steps that succeed lead on to the end of what follows them. -/
theorem after {x : Except Failure β} (first : Reads read front a) (last : Ends (f a) back x) :
    Ends (read >>= f) (front ++ back) x := by
  intro position rest
  obtain ⟨r, ended⟩ := last (position + front.length) rest
  have taken := first position (back ++ rest)
  refine ⟨r, ?_⟩
  simpa only [List.append_assoc, Failing.bind_of_ok taken] using ended

/-- Packing the bits does not change the end. -/
theorem run_pack {x : Except Failure α} (ends : Ends read bits x) :
    read.run (Bits.pack bits) = x := by
  obtain ⟨r, ended⟩ := ends 0 (Bits.padding bits)
  have start : BitReader.ofBytes (Bits.pack bits) = ⟨0, bits ++ Bits.padding bits⟩ :=
    congrArg (BitReader.mk 0) (Bits.unpack_pack bits)
  cases x with
  | ok a => exact Read.run_of_ok (start ▸ ended)
  | error e => exact Read.run_of_error (start ▸ ended)

end Ends

/-- The size that a header declares is no end if the bits can hold it. -/
theorem Header.ends_checkSize {α : Type} {read : Read α} {bits : List Bool}
    {x : Except Failure α} {h : Header} {ruleBits : Nat} (body : Ends read bits x)
    (enough : h.size * ruleBits ≤ bits.length) :
    Ends (h.checkSize ruleBits >>= fun _ => read) bits x := by
  intro position rest
  have room : ¬ (BitReader.remaining ⟨position, bits ++ rest⟩ < h.size * ruleBits) := by
    simp only [BitReader.remaining, List.length_append]
    omega
  have passed := (h.checkSize_apply ruleBits ⟨position, bits ++ rest⟩).trans (if_neg room)
  simpa only [Failing.bind_of_ok passed] using body position rest

namespace Grammar

variable {g h : Grammar}

/-- The rules of a grammar where they are are the same rules. -/
theorem sameRules_loose (g : Grammar) : SameRules (loose g.terminals g.bareRules g.root) g :=
  ⟨terminals_loose, root_loose, bareRules_loose⟩

/-- The test for the arena order looks at the rules and the root, not at lengths. -/
theorem SameRules.validate (s : SameRules g h) : g.validate = h.validate := by
  have tested (k : Grammar) : k.validate = (do
      k.bareRules.zipIdx.forM fun place => checkRule (k.terminals + place.2) place.1
      k.checkRoot) := by
    simp only [Grammar.bareRules, List.zipIdx_map, Failing.forM_map]
    rfl
  have root : g.checkRoot = h.checkRoot := by
    simp only [checkRoot, s.root, s.terminals, s.size]
  rw [tested g, tested h, s.bareRules, s.terminals, root]

theorem SameRules.computeLengths (s : SameRules g h) (o : h.Ordered) :
    g.computeLengths = h.computeLengths := by
  have og : g.Ordered := s.symm.ordered o
  have same := ((sameRules_computeLengths og).trans s).trans (sameRules_computeLengths o).symm
  exact same.eq_of_sized (sized_computeLengths og) (sized_computeLengths o)

/-- Handed over as rules, a grammar is tested as it stands and then measured. -/
theorem ofRules_eq (g : Grammar) : ofRules g.terminals g.bareRules g.root = do
    checkIdSpace g.terminals g.size
    g.validate
    return g.computeLengths := by
  let h := loose g.terminals g.bareRules g.root
  have same : SameRules h g := sameRules_loose g
  have measured : (g.validate >>= fun _ => pure h.computeLengths) =
      g.validate >>= fun _ => (pure g.computeLengths : Except Failure Grammar) := by
    cases valid : g.validate with
    | error e => rfl
    | ok _ =>
        have o := (validate_eq_ok_iff.mp valid).1
        exact congrArg Except.ok (same.computeLengths o)
  calc
    ofRules g.terminals g.bareRules g.root
      = (do
          checkIdSpace g.terminals g.bareRules.length
          h.validate
          return h.computeLengths) := rfl
    _ = _ := by rw [length_bareRules, same.validate, measured]

theorem ofRules_of_full (full : idSpace < g.terminals + g.size) :
    ofRules g.terminals g.bareRules g.root =
      .error (.malformed (.idRange g.terminals g.size)) := by
  have refused : checkIdSpace g.terminals g.size =
      .error (.malformed (.idRange g.terminals g.size)) := by
    simp [checkIdSpace, fitsIdSpace, Nat.not_le.mpr full]
  simp only [ofRules_eq, refused, Failing.error_bind]

theorem ofRules_of_fits (fits : g.terminals + g.size ≤ idSpace) :
    ofRules g.terminals g.bareRules g.root = g.validate >>= fun _ => .ok g.computeLengths := by
  have passed := checkIdSpace_eq_ok_iff.mpr fits
  simp only [ofRules_eq, passed, Failing.ok_bind, Failing.pure_eq]

/-- The rules of a grammar are accepted exactly where the grammar is sound, and give it back with
all lengths worked out. -/
theorem ofRules_eq_ok_iff : ofRules g.terminals g.bareRules g.root = .ok h ↔
    g.terminals + g.size ≤ idSpace ∧ g.validate = .ok () ∧ h = g.computeLengths := by
  obtain full | fits := Nat.lt_or_ge idSpace (g.terminals + g.size)
  · rw [ofRules_of_full full]
    constructor
    · intro accepted
      cases accepted
    · rintro ⟨fits, _⟩
      omega
  · rw [ofRules_of_fits fits, Failing.bind_eq_ok_iff]
    constructor
    · rintro ⟨_, valid, measured⟩
      exact ⟨fits, valid, (Except.ok.inj measured).symm⟩
    · rintro ⟨_, valid, rfl⟩
      exact ⟨(), valid, rfl⟩

theorem ofRules_eq_error_iff {e : Failure} : ofRules g.terminals g.bareRules g.root = .error e ↔
    idSpace < g.terminals + g.size ∧ e = .malformed (.idRange g.terminals g.size) ∨
      g.terminals + g.size ≤ idSpace ∧ g.validate = .error e := by
  obtain full | fits := Nat.lt_or_ge idSpace (g.terminals + g.size)
  · simp [ofRules_of_full full, full, Nat.not_le.mpr full, eq_comm]
  · rw [ofRules_of_fits fits]
    cases valid : g.validate with
    | ok _ => simp [Nat.not_lt.mpr fits]
    | error e' => simp [Nat.not_lt.mpr fits, fits]

end Grammar

namespace PlainFormat

variable {g : Grammar}

theorem encode_eq_encodeWithRoot (g : Grammar) : encode g = encodeWithRoot (g.root.getD 0) g := by
  rw [encode, encodeWithRoot, bits_eq_bitsWithRoot]

/-- All rules are read back, and then the constructor has the last word. -/
theorem ends_read (terminals : g.terminals < wordSpace) (size : g.size < wordSpace)
    {field : Symbol} (kept : ∀ v, g.root = some v → field = v) :
    Ends read (bitsWithRoot field g) (Grammar.ofRules g.terminals g.bareRules g.root) := by
  have space : wordSpace = 2 ^ 64 := rfl
  have blocks := Grammar.blocks_le_size g
  let h : Header := .withRoot field g
  have header : Reads readHeader (headerBits h) h := by
    apply reads_readHeader
    · show g.size < 2 ^ 64
      omega
    · show g.terminals < 2 ^ 64
      omega
    · exact field.toNat_lt
    · show g.blocks < 2 ^ 64
      omega
  have rules := Reads.collect g.bareRules (fun r _ => reads_readRule r) #[]
  have count : g.bareRules.length = h.size := g.length_bareRules
  have describes : h.Describes g := Header.describes_withRoot kept
  apply Ends.after header
  refine Header.ends_checkSize ?_ (size_mul_le_length g)
  rw [count, List.append_toArray, List.nil_append] at rules
  have last := Ends.after (f := fun rules : Array Rule => .ofExcept do
    h.checkBlocks rules.toList
    Grammar.ofRules h.terminals rules.toList (← h.rootSymbol)) rules (Ends.ofExcept _)
  simpa only [List.append_nil, describes.rebuild] using last

theorem decode_encodeWithRoot (terminals : g.terminals < wordSpace) (size : g.size < wordSpace)
    {field : Symbol} (kept : ∀ v, g.root = some v → field = v) :
    decode (encodeWithRoot field g) = Grammar.ofRules g.terminals g.bareRules g.root :=
  (ends_read terminals size kept).run_pack

/-- Whatever stands in a grammar, if its numbers of terminals and rules are words, the plain format
answers with what its rules and its root make up. That is the grammar itself with all lengths worked
out, if there are ids for its symbols and it passes the test for the arena order, and otherwise the
failure of the first of these two conditions that does not hold. Without a root, the field of the
root has no say in this. -/
theorem decode_encode_eq_ofRules {g : Grammar} (terminals : g.terminals < wordSpace)
    (size : g.size < wordSpace) :
    decode (encode g) = Grammar.ofRules g.terminals g.bareRules g.root ∧
    (∀ h, decode (encode g) = .ok h ↔
      g.terminals + g.size ≤ idSpace ∧ g.validate = .ok () ∧ h = g.computeLengths) ∧
    (∀ h, decode (encode g) = .ok h →
      h.terminals = g.terminals ∧ h.bareRules = g.bareRules ∧ h.root = g.root ∧
      (∀ (k : Nat) (entry : SizedRule), h.rules[k]? = some entry →
        entry.length = min (h.expand (h.ruleId k)).length lengthCap) ∧
      (h.isEmpty = true → (Header.ofGrammar h).root = 0)) ∧
    (∀ e, decode (encode g) = .error e ↔
      idSpace < g.terminals + g.size ∧ e = .malformed (.idRange g.terminals g.size) ∨
      g.terminals + g.size ≤ idSpace ∧ g.validate = .error e) ∧
    (g.root = none → ∀ field, decode (encodeWithRoot field g) = decode (encode g)) := by
  have answer : decode (encode g) = Grammar.ofRules g.terminals g.bareRules g.root := by
    rw [encode_eq_encodeWithRoot]
    exact decode_encodeWithRoot terminals size Grammar.getD_root
  have accepted (h : Grammar) : decode (encode g) = .ok h ↔
      g.terminals + g.size ≤ idSpace ∧ g.validate = .ok () ∧ h = g.computeLengths := by
    rw [answer]
    exact Grammar.ofRules_eq_ok_iff
  refine ⟨answer, accepted, ?_, ?_, ?_⟩
  · intro h made
    obtain ⟨fits, valid, rfl⟩ := (accepted h).mp made
    have o := (Grammar.validate_eq_ok_iff.mp valid).1
    have same := Grammar.sameRules_computeLengths o
    have sized := Grammar.sized_computeLengths o
    have fits' : g.computeLengths.terminals + g.computeLengths.size ≤ idSpace := by
      simpa only [same.terminals, same.size] using fits
    refine ⟨same.terminals, same.bareRules, same.root, ?_, ?_⟩
    · intro k entry stored
      exact sized.entry_length (same.symm.ordered o) fits' stored
    · intro empty
      have none : g.computeLengths.root = none := by simpa [Grammar.isEmpty] using empty
      simp [Header.ofGrammar, none]
  · intro e
    rw [answer]
    exact Grammar.ofRules_eq_error_iff
  · intro none field
    rw [answer]
    exact decode_encodeWithRoot terminals size fun v found => by cases none.symm.trans found

/-- A block of one copy, behind a pair that is sound and before one whose operands come later. No
rule has the root. -/
def misshapen : Grammar where
  terminals := 4
  rules := #[⟨.pair 3 0, 7⟩, ⟨.block 4 1, 0⟩, ⟨.pair 6 4294967295, 2⟩]
  root := some 77

/-- A block that was not measured, and no root. -/
def unmeasured : Grammar where
  terminals := 1
  rules := #[⟨.block 0 3, 0⟩]

theorem decode_encode_eq_ofRules_misshapen :
    misshapen.terminals < wordSpace ∧ misshapen.size < wordSpace ∧
    unmeasured.terminals < wordSpace ∧ unmeasured.size < wordSpace ∧
    decode (encode misshapen) = .error (.malformed (.shortBlock 5 1)) ∧
    (∀ h, decode (encode misshapen) ≠ .ok h) ∧
    ∀ field, decode (encodeWithRoot field unmeasured) =
      .ok { unmeasured with rules := #[⟨.block 0 3, 3⟩] } := by
  have invalid : misshapen.validate = .error (.malformed (.shortBlock 5 1)) := by rfl
  have valid : unmeasured.validate = .ok () := by rfl
  have measured : { unmeasured with rules := #[⟨.block 0 3, 3⟩] } = unmeasured.computeLengths := by
    decide
  obtain ⟨-, accepted, -, failed, -⟩ :=
    decode_encode_eq_ofRules (g := misshapen) (by decide) (by decide)
  obtain ⟨-, accepted', -, -, hidden⟩ :=
    decode_encode_eq_ofRules (g := unmeasured) (by decide) (by decide)
  refine ⟨by decide, by decide, by decide, by decide, ?_, ?_, ?_⟩
  · exact (failed _).mpr (.inr ⟨by decide, invalid⟩)
  · intro h made
    obtain ⟨-, sound, -⟩ := (accepted h).mp made
    cases invalid.symm.trans sound
  · intro field
    exact (hidden rfl field).trans ((accepted' _).mpr ⟨by decide, valid, measured⟩)

end PlainFormat

end RunGrammar
