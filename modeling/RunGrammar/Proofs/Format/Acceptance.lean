import Mathlib
import RunGrammar.Format.Choice
import RunGrammar.Proofs.Bits.Careful
import RunGrammar.Proofs.Format.Header
import RunGrammar.Proofs.Grammar.Construction

/-!
# What the decoders accept

A decoder is handed bytes of any origin. It answers each string of bytes, with a
failure or with a grammar, and a grammar that it returns is sound: it passes the
test for the arena order, its ids are different words, its lengths are right,
and it has as many rules and blocks as the header of the string declares.

Each decoder is also written with guards on all of its steps, from the bits that
are taken out of words to the arrays of the constructors at its end. The guarded
decoders are answered on every string of bytes as the unguarded ones are, so
none of the guarded steps is ever refused. The facts that carry this are the
bounds on what a field can hold, which come out of the reader together with the
field.
-/

namespace RunGrammar

variable {α : Type}

/-! ### Headers -/

namespace Header

/-- A sound grammar that is as this header says. -/
structure Accepts (h : Header) (g : Grammar) : Prop where
  valid : g.validate = .ok ()
  fits : g.terminals + g.size ≤ idSpace
  sized : g.Sized
  size : h.size = g.size
  blocks : h.blocks = g.blocks
  terminals : h.terminals = g.terminals
  isEmpty : h.isEmpty = g.isEmpty

variable {h : Header} {rules : List Rule} {root : Option Symbol} {g : Grammar}

theorem isNone_of_rootSymbol (found : h.rootSymbol = .ok root) : root.isNone = h.isEmpty := by
  unfold rootSymbol at found
  by_cases empty : h.isEmpty = true
  · rw [if_pos empty] at found
    cases found
    simp [empty]
  · rw [if_neg empty] at found
    split at found
    · cases found
      simp [empty]
    · cases found

theorem countP_of_checkBlocks (passed : h.checkBlocks rules = .ok ()) :
    rules.countP (·.isBlock) = h.blocks := by
  by_contra other
  simp [checkBlocks, other] at passed

/-- Rules in order make up a grammar that is as the header says. -/
theorem accepts_ofRules (count : rules.length = h.size) (blocks : h.checkBlocks rules = .ok ())
    (found : h.rootSymbol = .ok root) (made : Grammar.ofRules h.terminals rules root = .ok g) :
    h.Accepts g := by
  obtain ⟨fits, same, valid, sized⟩ := Grammar.ofRules_ok made
  have size : g.size = rules.length := same.size.trans Grammar.size_loose
  have bare : g.bareRules = rules := same.bareRules.trans Grammar.bareRules_loose
  exact {
    valid, sized
    fits := by rwa [same.terminals, size]
    size := count.symm.trans size.symm
    blocks := by rw [Grammar.blocks_eq_countP, bare, countP_of_checkBlocks blocks]
    terminals := same.terminals.symm
    isEmpty := by
      rw [← isNone_of_rootSymbol found, Grammar.isEmpty, same.root, Grammar.root_loose] }

/-- Rules in any order make up a grammar that is as the header says. -/
theorem accepts_ofUnordered (count : rules.length = h.size)
    (blocks : rules.countP (·.isBlock) = h.blocks) (found : h.rootSymbol = .ok root)
    (made : Grammar.ofUnordered h.terminals rules root = .ok g) : h.Accepts g := by
  have settled := Grammar.settles_of_ofUnordered made
  obtain ⟨σ, ren⟩ := settled.renumbers
  exact {
    valid := settled.valid
    sized := settled.sized
    fits := by
      rw [ren.terminals, ren.size, Grammar.terminals_loose, Grammar.size_loose]
      exact settled.fits
    size := by rw [ren.size, Grammar.size_loose, count]
    blocks := by rw [ren.blocks, Grammar.blocks_eq_countP, Grammar.bareRules_loose, blocks]
    terminals := by rw [ren.terminals, Grammar.terminals_loose]
    isEmpty := by
      rw [ren.isEmpty, ← isNone_of_rootSymbol found, Grammar.isEmpty, Grammar.root_loose] }

/-- Fails unless the declared rules can follow, and sets aside room for no more rules than there
are bits. A product that is too large for a word is larger than the number of these. -/
def checkSizeCareful (h : Header) (ruleBits : Nat) : Careful Unit := fun b => do
  let remaining ← Guarded.check b.remaining
  if remaining < h.size * ruleBits then
    throw (.malformed (.tooManyRules h.size remaining))
  else
    Guarded.demand (h.size ≤ b.size)
    return ((), b)

theorem follows_checkSize (h : Header) {ruleBits : Nat} (pos : 0 < ruleBits) :
    Careful.Follows (h.checkSizeCareful ruleBits) (h.checkSize ruleBits) fun _ => True := by
  intro bytes b w
  rw [checkSizeCareful, w.toBalanced.remaining_eq, Guarded.check_some, Guarded.of_ok_bind,
    checkSize_apply]
  by_cases short : b.view.remaining < h.size * ruleBits
  · rw [if_pos short, if_pos short]
    exact .inr ⟨_, _, rfl, rfl⟩
  · have few : h.size ≤ b.size := by
      have := Nat.le_mul_of_pos_right h.size pos
      have := w.toBalanced.remaining_le
      omega
    rw [if_neg short, if_neg short, Guarded.demand_of_true few]
    exact .inl ⟨(), b, rfl, rfl, w, trivial⟩

end Header

open Careful (Follows)

/-- A test of what was read takes no bits. -/
theorem follows_ofExcept (x : Except Failure α) :
    Follows (liftM (Guarded.of x)) (Read.ofExcept x) fun _ => True :=
  Follows.guarded rfl fun _ _ => trivial

/-! ### The plain format -/

namespace PlainFormat

def readHeaderCareful : Careful Header := do
  let isEmpty ← Careful.bit
  let size ← Careful.word 64
  let terminals ← Careful.word 64
  let root ← Careful.bits 32
  let blocks ← Careful.word 64
  return { isEmpty, size, terminals, root, blocks }

/-- The rule with this signed form. Neither the successor nor its negation may overflow. -/
def ofSignedGuarded (first : Symbol) (second : Int) : Guarded (Option Rule) :=
  if 0 ≤ second then
    return if second < idSpace then some (.pair first (.ofNat second.toNat)) else none
  else do
    let next ← Guarded.check (Checked.signed (second + 1))
    let count ← Guarded.check (Checked.signed (-next))
    return if count < idSpace then some (.block first (.ofNat count.toNat)) else none

def readRuleCareful : Careful Rule := do
  let first ← Careful.bits 32
  let second ← Careful.word 64
  let symbol : Symbol := .ofNat first
  let signedSecond := (second : Int).bmod wordSpace
  match ← ofSignedGuarded symbol signedSecond with
  | some r => return r
  | none => throw (.malformed (.noSuchRule symbol signedSecond (← Careful.position)))

/-- What follows the header. -/
def readRulesCareful (header : Header) : Careful Grammar := do
  header.checkSizeCareful 96
  let rules ← Careful.collect readRuleCareful header.size #[]
  liftM do
    Guarded.of (header.checkBlocks rules.toList)
    Grammar.ofRulesGuarded header.terminals rules.toList (← Guarded.of header.rootSymbol)

theorem follows_readHeader : Follows readHeaderCareful readHeader fun _ => True := by
  apply Follows.bit.bind
  intro isEmpty _
  apply (Follows.word (by decide)).bind
  intro size _
  apply (Follows.word (by decide)).bind
  intro terminals _
  apply (Follows.bits (by decide)).bind
  intro root _
  apply (Follows.word (by decide)).bind
  intro blocks _
  exact Follows.pure trivial

theorem ofSignedGuarded_eq (first : Symbol) {second : Int} (h : Bits.isSignedWord second = true) :
    ofSignedGuarded first second = .of (.ok (Rule.ofSigned? first second)) := by
  have bounds := Bits.isSignedWord_iff.mp h
  unfold ofSignedGuarded Rule.ofSigned?
  by_cases pair : 0 ≤ second
  · rw [if_pos pair, if_pos pair]
    rfl
  · have next : Bits.isSignedWord (second + 1) = true := Bits.isSignedWord_iff.mpr (by omega)
    have count : Bits.isSignedWord (-(second + 1)) = true := Bits.isSignedWord_iff.mpr (by omega)
    rw [if_neg pair, if_neg pair, Checked.signed_of_fits next, Guarded.check_some,
      Guarded.of_ok_bind, Checked.signed_of_fits count]
    rfl

theorem follows_readRule : Follows readRuleCareful readRule fun _ => True := by
  apply (Follows.bits (by decide)).bind
  intro first _
  apply (Follows.word (by decide)).bind
  intro second _
  have word : Bits.isSignedWord ((second : Int).bmod wordSpace) = true := by
    have low : -((wordSpace : Int) / 2) ≤ (second : Int).bmod wordSpace := Int.le_bmod (by decide)
    have high : (second : Int).bmod wordSpace < (wordSpace + 1) / 2 := Int.bmod_lt (by decide)
    have space : (wordSpace : Int) = 2 ^ 64 := rfl
    exact Bits.isSignedWord_iff.mpr (by omega)
  generalize (second : Int).bmod wordSpace = signedSecond at word ⊢
  apply Follows.guard_bind (ofSignedGuarded_eq _ word)
  dsimp only
  cases Rule.ofSigned? (.ofNat first) signedSecond with
  | some r => exact Follows.pure trivial
  | none => exact Follows.position.bind fun _ _ => Follows.throw _

end PlainFormat

/-- What the decoders of rules in order do in the end. -/
theorem follows_ofRules {header : Header} {rules : Array Rule} (count : rules.size = header.size) :
    Follows
      (liftM do
        Guarded.of (header.checkBlocks rules.toList)
        Grammar.ofRulesGuarded header.terminals rules.toList (← Guarded.of header.rootSymbol))
      (Read.ofExcept do
        header.checkBlocks rules.toList
        Grammar.ofRules header.terminals rules.toList (← header.rootSymbol))
      header.Accepts := by
  apply Follows.guarded
  · refine Guarded.bind_eq_of rfl fun _ _ => ?_
    refine Guarded.bind_eq_of rfl fun root _ => ?_
    exact Grammar.ofRulesGuarded_eq _ _ root
  · intro g made
    obtain ⟨_, blocks, made⟩ := Failing.bind_eq_ok_iff.mp made
    obtain ⟨root, found, made⟩ := Failing.bind_eq_ok_iff.mp made
    exact Header.accepts_ofRules (by simpa using count) blocks found made

namespace PlainFormat

theorem follows_readRules (header : Header) :
    Follows (readRulesCareful header) (do
      header.checkSize 96
      let rules ← Read.collect readRule header.size #[]
      .ofExcept do
        header.checkBlocks rules.toList
        Grammar.ofRules header.terminals rules.toList (← header.rootSymbol)) header.Accepts := by
  apply (header.follows_checkSize (by decide)).bind
  intro _ _
  apply (Follows.collect follows_readRule).bind
  intro rules count
  exact follows_ofRules (by simpa using count)

/-- The decoder, with guards. -/
def decodeGuarded (bytes : List UInt8) : Guarded Grammar :=
  (readHeaderCareful >>= readRulesCareful).run bytes

theorem decode_answers (bytes : List UInt8) :
    decodeGuarded bytes = .of (decode bytes) ∧ ∀ g, decode bytes = .ok g →
      ∃ header r, readHeader (.ofBytes bytes) = .ok header r ∧ header.Accepts g :=
  follows_readHeader.run_bind (fun header _ => follows_readRules header) bytes

end PlainFormat

/-! ### The fixed-width format -/

namespace FixedFormat

def readHeaderCareful : Careful WideHeader := do
  let isEmpty ← Careful.bit
  let width ← Guarded.check (Checked.upTo 255 ((← Careful.bits 6) + 1))
  let size ← Careful.word width
  let terminals ← Careful.word width
  let root ← Careful.word width
  let blocks ← Careful.word width
  let countWidth ← Guarded.check (Checked.upTo 255 ((← Careful.bits 6) + 1))
  return { isEmpty, size, terminals, root, blocks, width, countWidth }

def readRuleCareful (width countWidth : Nat) : Careful Rule := do
  let isBlock ← Careful.bit
  let first ← Guarded.of (symbolOfNat (← Careful.word width))
  if isBlock then
    return .block first (← Guarded.of (countOfNat (← Careful.word countWidth)))
  else
    return .pair first (← Guarded.of (symbolOfNat (← Careful.word width)))

/-- What follows the header. -/
def readRulesCareful (header : WideHeader) : Careful Grammar := do
  let least ← Guarded.check (Checked.add 1 header.width)
  let least ← Guarded.check (Checked.add least (min header.width header.countWidth))
  header.checkSizeCareful least
  let rules ← Careful.collect (readRuleCareful header.width header.countWidth) header.size #[]
  liftM do
    Guarded.of (header.checkBlocks rules.toList)
    Grammar.ofRulesGuarded header.terminals rules.toList (← Guarded.of header.rootSymbol)

/-- The widths that can be announced are at most those of words. -/
def WideHeader.Narrow (header : WideHeader) : Prop :=
  header.width ≤ 64 ∧ header.countWidth ≤ 64

theorem follows_readHeader : Follows readHeaderCareful readHeader WideHeader.Narrow := by
  apply Follows.bit.bind
  intro isEmpty _
  apply (Follows.bits (by decide)).bind
  intro low hl
  have hw : low + 1 ≤ 64 := hl
  apply Follows.check_bind (Checked.upTo_of_le (by omega))
  apply (Follows.word hw).bind
  intro size _
  apply (Follows.word hw).bind
  intro terminals _
  apply (Follows.word hw).bind
  intro root _
  apply (Follows.word hw).bind
  intro blocks _
  apply (Follows.bits (by decide)).bind
  intro high hh
  have hc : high + 1 ≤ 64 := hh
  apply Follows.check_bind (Checked.upTo_of_le (by omega))
  exact Follows.pure ⟨hw, hc⟩

theorem follows_readRule {width countWidth : Nat} (hw : width ≤ 64) (hc : countWidth ≤ 64) :
    Follows (readRuleCareful width countWidth) (readRule width countWidth) fun _ => True := by
  apply Follows.bit.bind
  intro isBlock _
  apply (Follows.word hw).bind
  intro first _
  apply (follows_ofExcept (symbolOfNat first)).bind
  intro a _
  cases isBlock with
  | true =>
      apply (Follows.word hc).bind
      intro count _
      exact (follows_ofExcept (countOfNat count)).bind fun _ _ => Follows.pure trivial
  | false =>
      apply (Follows.word hw).bind
      intro second _
      exact (follows_ofExcept (symbolOfNat second)).bind fun _ _ => Follows.pure trivial

theorem follows_readRules {header : WideHeader} (narrow : header.Narrow) :
    Follows (readRulesCareful header) (do
      header.checkSize (1 + header.width + min header.width header.countWidth)
      let rules ← Read.collect (readRule header.width header.countWidth) header.size #[]
      .ofExcept do
        header.checkBlocks rules.toList
        Grammar.ofRules header.terminals rules.toList (← header.rootSymbol))
      header.toHeader.Accepts := by
  obtain ⟨hw, hc⟩ := narrow
  have space : wordSpace = 2 ^ 64 := rfl
  apply Follows.check_bind (Checked.add_of_lt (by omega))
  apply Follows.check_bind (Checked.add_of_lt (by omega))
  apply (header.follows_checkSize (by omega)).bind
  intro _ _
  apply (Follows.collect (follows_readRule hw hc)).bind
  intro rules count
  exact follows_ofRules (by simpa using count)

/-- The decoder, with guards. -/
def decodeGuarded (bytes : List UInt8) : Guarded Grammar :=
  (readHeaderCareful >>= readRulesCareful).run bytes

theorem decode_answers (bytes : List UInt8) :
    decodeGuarded bytes = .of (decode bytes) ∧ ∀ g, decode bytes = .ok g →
      ∃ header r, readHeader (.ofBytes bytes) = .ok header r ∧ header.toHeader.Accepts g :=
  follows_readHeader.run_bind (fun _ narrow => follows_readRules narrow) bytes

end FixedFormat

/-! ### The sorted format -/

namespace SortedFormat

def readHeaderCareful : Careful Header := do
  let isEmpty ← Careful.bit
  let terminals ← Careful.gammaFromZero
  let size ← Careful.gammaFromZero
  let blocks ← Careful.gammaFromZero
  let root ← Careful.gammaFromZero
  return { isEmpty, size, terminals, root, blocks }

/-- Reads a field as a difference. Whether the sum is a word is asked, not assumed. -/
def readFieldCareful (previous : Int) : Careful Int := do
  let value := previous + (← Careful.signed)
  let position ← Careful.position
  if !Bits.isSignedWord value then throw (.malformed (.deltaOverflow position))
  if value < 0 then throw (.malformed (.negativeField value position))
  return value

def readKindCareful (make : Nat → Nat → Except Failure Rule) :
    (count : Nat) → (previous : Int × Int) → (done : Array Rule) → Careful (Array Rule)
  | 0, _, done => return done
  | count + 1, previous, done => do
    let first ← readFieldCareful previous.1
    let second ← readFieldCareful previous.2
    let r ← Guarded.of (make first.toNat second.toNat)
    readKindCareful make count (first, second) (done.push r)

/-- What follows the header. -/
def readRulesCareful (header : Header) : Careful Grammar := do
  if header.size < header.blocks then throw (.headerMismatch header.size header.blocks)
  header.checkSizeCareful 4
  let pairCount ← Guarded.check (Checked.sub header.size header.blocks)
  let pairs ← readKindCareful makePair pairCount (0, 0) #[]
  let rules ← readKindCareful makeBlock header.blocks (0, 0) pairs
  liftM do
    Grammar.ofUnorderedGuarded header.terminals rules.toList (← Guarded.of header.rootSymbol)

theorem follows_readHeader : Follows readHeaderCareful readHeader fun _ => True := by
  apply Follows.bit.bind
  intro isEmpty _
  apply Follows.gammaFromZero.bind
  intro terminals _
  apply Follows.gammaFromZero.bind
  intro size _
  apply Follows.gammaFromZero.bind
  intro blocks _
  apply Follows.gammaFromZero.bind
  intro root _
  exact Follows.pure trivial

theorem follows_readField (previous : Int) :
    Follows (readFieldCareful previous) (readField previous) fun _ => True := by
  apply Follows.signed.bind
  intro difference _
  apply Follows.position.bind
  intro position _
  dsimp only
  by_cases word : Bits.isSignedWord (previous + difference) = true
  · by_cases negative : previous + difference < 0
    · simp only [word, negative]
      exact Follows.throw _
    · simp only [word, negative]
      exact Follows.pure trivial
  · simp only [word]
    exact Follows.throw _

/-- Rules of one kind are read behind those that are there already. -/
theorem follows_readKind {make : Nat → Nat → Except Failure Rule} {kind : Bool}
    (made : ∀ a b r, make a b = .ok r → r.isBlock = kind) (count : Nat) (previous : Int × Int)
    (done : Array Rule) :
    Follows (readKindCareful make count previous done) (readRules make count previous done)
      fun all => ∃ rules : List Rule, all.toList = done.toList ++ rules ∧ rules.length = count ∧
        ∀ r ∈ rules, r.isBlock = kind := by
  induction count generalizing previous done with
  | zero => exact Follows.pure ⟨[], by simp⟩
  | succ count ih =>
      apply (follows_readField previous.1).bind
      intro first _
      apply (follows_readField previous.2).bind
      intro second _
      have rule : Follows (liftM (Guarded.of (make first.toNat second.toNat)))
          (Read.ofExcept (make first.toNat second.toNat)) (·.isBlock = kind) :=
        Follows.guarded rfl fun r => made _ _ r
      apply rule.bind
      intro r hr
      apply (ih (first, second) (done.push r)).mono
      rintro all ⟨rules, same, length, kinds⟩
      exact ⟨r :: rules, by simp [same], by simp [length], List.forall_mem_cons.mpr ⟨hr, kinds⟩⟩

theorem isBlock_makePair {a b : Nat} {r : Rule} (made : makePair a b = .ok r) :
    r.isBlock = false := by
  obtain ⟨x, _, made⟩ := Failing.bind_eq_ok_iff.mp made
  obtain ⟨y, _, made⟩ := Failing.bind_eq_ok_iff.mp made
  cases made
  rfl

theorem isBlock_makeBlock {a b : Nat} {r : Rule} (made : makeBlock a b = .ok r) :
    r.isBlock = true := by
  obtain ⟨x, _, made⟩ := Failing.bind_eq_ok_iff.mp made
  obtain ⟨y, _, made⟩ := Failing.bind_eq_ok_iff.mp made
  cases made
  rfl

theorem follows_readRules (header : Header) :
    Follows (readRulesCareful header) (do
      if header.size < header.blocks then throw (.headerMismatch header.size header.blocks)
      header.checkSize 4
      let pairs ← readRules makePair (header.size - header.blocks) (0, 0) #[]
      let rules ← readRules makeBlock header.blocks (0, 0) pairs
      .ofExcept do Grammar.ofUnordered header.terminals rules.toList (← header.rootSymbol))
      header.Accepts := by
  unfold readRulesCareful
  by_cases more : header.size < header.blocks
  · simp only [more, if_true]
    exact Follows.throw _
  simp only [more, if_false]
  apply (header.follows_checkSize (by decide)).bind
  intro _ _
  apply Follows.check_bind (Checked.sub_of_le (Nat.not_lt.mp more))
  apply (follows_readKind (fun _ _ _ => isBlock_makePair) _ _ _).bind
  rintro pairs ⟨ps, samePairs, pairCount, arePairs⟩
  apply (follows_readKind (fun _ _ _ => isBlock_makeBlock) _ _ _).bind
  rintro rules ⟨bs, same, blockCount, areBlocks⟩
  apply Follows.guarded
  · exact Guarded.bind_eq_of rfl fun root _ => Grammar.ofUnorderedGuarded_eq _ _ root
  · intro g made
    obtain ⟨root, found, made⟩ := Failing.bind_eq_ok_iff.mp made
    have rulesEq : rules.toList = ps ++ bs := by simpa [samePairs] using same
    refine Header.accepts_ofUnordered ?_ ?_ found made
    · rw [rulesEq, List.length_append, pairCount, blockCount]
      omega
    · have noBlocks : ps.countP (·.isBlock) = 0 := by simpa using arePairs
      have allBlocks : bs.countP (·.isBlock) = bs.length := by simpa using areBlocks
      rw [rulesEq, List.countP_append, noBlocks, allBlocks, blockCount, Nat.zero_add]

/-- The decoder, with guards. -/
def decodeGuarded (bytes : List UInt8) : Guarded Grammar :=
  (readHeaderCareful >>= readRulesCareful).run bytes

theorem decode_answers (bytes : List UInt8) :
    decodeGuarded bytes = .of (decode bytes) ∧ ∀ g, decode bytes = .ok g →
      ∃ header r, readHeader (.ofBytes bytes) = .ok header r ∧ header.Accepts g :=
  follows_readHeader.run_bind (fun header _ => follows_readRules header) bytes

end SortedFormat

namespace Format

/-- The decoder of a format, with guards on all of its steps. -/
def decodeGuarded (bytes : List UInt8) : Format → Guarded Grammar
  | plain => PlainFormat.decodeGuarded bytes
  | fixed => FixedFormat.decodeGuarded bytes
  | sorted => SortedFormat.decodeGuarded bytes

/-- Reads what all formats begin with. -/
def readHeader : Format → Read Header
  | plain => PlainFormat.readHeader
  | fixed => return (← FixedFormat.readHeader).toHeader
  | sorted => SortedFormat.readHeader

theorem decode_answers (f : Format) (bytes : List UInt8) :
    f.decodeGuarded bytes = .of (f.decode bytes) ∧ ∀ g, f.decode bytes = .ok g →
      ∃ header r, f.readHeader (.ofBytes bytes) = .ok header r ∧ header.Accepts g := by
  cases f with
  | plain => exact PlainFormat.decode_answers bytes
  | fixed =>
      obtain ⟨answered, accepted⟩ := FixedFormat.decode_answers bytes
      refine ⟨answered, fun g made => ?_⟩
      obtain ⟨header, r, found, accepts⟩ := accepted g made
      exact ⟨header.toHeader, r, Failing.bind_of_ok found, accepts⟩
  | sorted => exact SortedFormat.decode_answers bytes

/-- On every string of bytes each decoder is answered, with none of its guarded steps refused. If
the answer is a grammar, this is in arena order and has ids for all of its symbols; it has as many
rules and blocks as the header declares; all of its lengths are right; each of its symbols stands
for at least one terminal and for terminals only; and it has no root if it is empty. -/
theorem decode_accepts (f : Format) (bytes : List UInt8) :
    f.decodeGuarded bytes = .of (f.decode bytes) ∧
    ∀ g, f.decode bytes = .ok g →
      g.validate = .ok () ∧ g.terminals + g.size ≤ idSpace ∧
      (∃ header r, f.readHeader (.ofBytes bytes) = .ok header r ∧ header.size = g.size ∧
        header.blocks = g.blocks ∧ header.terminals = g.terminals ∧
        header.isEmpty = g.isEmpty) ∧
      (∀ (k : Nat) (entry : SizedRule), g.rules[k]? = some entry →
        entry.length = min (g.expand (g.ruleId k)).length lengthCap) ∧
      (∀ v, g.Known v → g.expand v ≠ [] ∧ ∀ c ∈ g.expand v, c.toNat < g.terminals) ∧
      (g.isEmpty = true → (Header.ofGrammar g).root = 0) := by
  obtain ⟨answered, accepted⟩ := f.decode_answers bytes
  refine ⟨answered, fun g made => ?_⟩
  obtain ⟨header, r, found, accepts⟩ := accepted g made
  have o := (Grammar.validate_eq_ok_iff.mp accepts.valid).1
  refine ⟨accepts.valid, accepts.fits,
    ⟨header, r, found, accepts.size, accepts.blocks, accepts.terminals, accepts.isEmpty⟩,
    fun k entry stored => ?_,
    fun v known => ⟨o.expand_ne_nil v, fun c => o.lt_of_mem_expand known⟩, fun empty => ?_⟩
  · exact accepts.sized.entry_length o accepts.fits stored
  · have none : g.root = none := by simpa [Grammar.isEmpty] using empty
    simp [Header.ofGrammar, none]

/-- A grammar whose pair is stored before the block that it needs. -/
def pairOfBlock : Grammar where
  terminals := 1
  rules := #[⟨.block 0 3, 3⟩, ⟨.pair 1 0, 4⟩]
  root := some 2

theorem decode_accepts_pairOfBlock :
    sorted.decode [100, 137, 21, 1] = .ok pairOfBlock ∧
      pairOfBlock.validate = .ok () ∧ pairOfBlock.terminals + pairOfBlock.size ≤ idSpace ∧
      (∃ header r, sorted.readHeader (.ofBytes [100, 137, 21, 1]) = .ok header r ∧
        header.size = pairOfBlock.size ∧ header.blocks = pairOfBlock.blocks ∧
        header.terminals = pairOfBlock.terminals ∧ header.isEmpty = pairOfBlock.isEmpty) ∧
      (∀ (k : Nat) (entry : SizedRule), pairOfBlock.rules[k]? = some entry →
        entry.length = min (pairOfBlock.expand (pairOfBlock.ruleId k)).length lengthCap) ∧
      (∀ v, pairOfBlock.Known v → pairOfBlock.expand v ≠ [] ∧
        ∀ c ∈ pairOfBlock.expand v, c.toNat < pairOfBlock.terminals) ∧
      (pairOfBlock.isEmpty = true → (Header.ofGrammar pairOfBlock).root = 0) := by
  have made : sorted.decode [100, 137, 21, 1] = .ok pairOfBlock := by cbv
  exact ⟨made, (decode_accepts sorted [100, 137, 21, 1]).2 pairOfBlock made⟩

end Format

end RunGrammar
