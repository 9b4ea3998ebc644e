import Mathlib
import RunGrammar.Proofs.Bits.Bitwise
import RunGrammar.Proofs.Format.Acceptance
import RunGrammar.Proofs.Format.Exact

/-!
# Storing again what was read

In the plain format the bits of a field tell its value and the value tells the
bits, so a grammar that was read is stored with the bits that it was read from.
Two places are free: the root of an empty grammar, which is there but has no
meaning and is stored as zero, and what follows the last rule.

The reader is followed field by field for the bits that it has taken when it
succeeds. This is the converse of `Reads`, which starts from the bits that are
written.
-/

namespace RunGrammar

variable {α β : Type}

/-- Whenever the action succeeds, the bits that it took and its result are related in this way. -/
def Takes (read : Read α) (P : List Bool → α → Prop) : Prop :=
  ∀ r a r', read r = .ok a r' →
    ∃ taken, r.rest = taken ++ r'.rest ∧ r'.position = r.position + taken.length ∧ P taken a

namespace Takes

variable {read : Read α} {f : α → Read β} {P : List Bool → α → Prop} {Q : List Bool → β → Prop}

theorem pure {a : α} (h : P [] a) : Takes (Pure.pure a) P := by
  rintro r _ _ ⟨⟩
  exact ⟨[], rfl, rfl, h⟩

theorem throw (e : Failure) : Takes (MonadExcept.throw e : Read α) P := by
  rintro r a r' ⟨⟩

theorem bind (first : Takes read P)
    (second : ∀ front a, P front a → Takes (f a) fun back b => Q (front ++ back) b) :
    Takes (read >>= f) Q := by
  intro r b r'' done
  cases taken : read r with
  | error e r' =>
      rw [Failing.bind_of_error taken] at done
      cases done
  | ok a r' =>
      rw [Failing.bind_of_ok taken] at done
      obtain ⟨front, split, place, hP⟩ := first r a r' taken
      obtain ⟨back, split', place', hQ⟩ := second front a hP r' b r'' done
      refine ⟨front ++ back, ?_, ?_, hQ⟩
      · rw [split, split', List.append_assoc]
      · rw [place', place, List.length_append, Nat.add_assoc]

theorem position : Takes Read.position fun taken _ => taken = [] := by
  rintro r _ _ ⟨⟩
  exact ⟨[], rfl, rfl, rfl⟩

theorem ofExcept {x : Except Failure α} (h : ∀ a, x = .ok a → P [] a) :
    Takes (Read.ofExcept x) P := by
  cases x with
  | ok a => exact pure (h a rfl)
  | error e => exact throw e

/-- A number that is made of the next bits, if there are enough of them, has these bits. -/
theorem number {read : Read Nat} {count : Nat}
    (enough : ∀ r, count ≤ r.rest.length → read r =
      .ok (Bits.toNat (r.rest.take count)) ⟨r.position + count, r.rest.drop count⟩)
    (short : ∀ r, r.rest.length < count → ∃ e r', read r = .error e r') :
    Takes read fun taken value => taken = Bits.ofNat count value ∧ value < 2 ^ count := by
  intro r value r' done
  obtain few | many := Nat.lt_or_ge r.rest.length count
  · obtain ⟨e, stop, failed⟩ := short r few
    cases failed.symm.trans done
  · cases (enough r many).symm.trans done
    have long : (r.rest.take count).length = count := List.length_take_of_le many
    refine ⟨r.rest.take count, (List.take_append_drop count _).symm, ?_, ?_, ?_⟩
    · rw [long]
    · exact (Bits.ofNat_toNat_of_length long).symm
    · have small := Bits.toNat_lt (r.rest.take count)
      rwa [long] at small

theorem bits (count : Nat) :
    Takes (Read.bits count) fun taken value =>
      taken = Bits.ofNat count value ∧ value < 2 ^ count :=
  number (fun _ => Read.bits_of_le) fun _ few => ⟨_, _, Read.bits_of_lt few⟩

theorem word {count : Nat} (narrow : count ≤ 64) :
    Takes (Read.word count) fun taken value =>
      taken = Bits.ofNat count value ∧ value < 2 ^ count :=
  number (fun _ => Read.word_of_le narrow) fun _ few =>
    let ⟨_, r', failed⟩ := Read.word_of_short few
    ⟨_, r', failed⟩

theorem bit : Takes Read.bit fun taken value => taken = [value] := by
  apply (bits 1).bind
  rintro _ value ⟨rfl, small⟩
  apply pure
  obtain rfl | rfl : value = 0 ∨ value = 1 := by omega
  · rfl
  · rfl

/-- What was collected is written value after value. -/
theorem collect {encode : α → List Bool} (each : Takes read fun taken a => taken = encode a)
    (count : Nat) (done : Array α) :
    Takes (Read.collect read count done) fun taken all =>
      ∃ values : List α, all.toList = done.toList ++ values ∧ values.length = count ∧
        taken = values.flatMap encode := by
  induction count generalizing done with
  | zero => exact pure ⟨[], by simp⟩
  | succ count ih =>
      apply each.bind
      rintro _ a rfl
      intro r all r' rest
      obtain ⟨taken, split, place, values, same, long, rfl⟩ := ih (done.push a) r all r' rest
      exact ⟨_, split, place, a :: values, by simp [same], by simp [long], rfl⟩

end Takes

namespace Rule

/-- A second field is the signed form of at most one rule for each left operand. -/
theorem ofSigned?_eq_some_iff {a : Symbol} {second : Int} {r : Rule} :
    ofSigned? a second = some r ↔ r.first = a ∧ r.signedSecond = second := by
  constructor
  · intro found
    unfold ofSigned? at found
    by_cases pair : 0 ≤ second
    · rw [if_pos pair] at found
      split at found
      · rename_i small
        cases found
        have fits : second.toNat < idSpace := by omega
        refine ⟨rfl, ?_⟩
        rw [signedSecond, UInt32.toNat_ofNat_of_lt' fits]
        exact Int.toNat_of_nonneg pair
      · cases found
    · rw [if_neg pair] at found
      dsimp only at found
      split at found
      · rename_i small
        cases found
        have fits : (-(second + 1)).toNat < idSpace := by omega
        refine ⟨rfl, ?_⟩
        rw [signedSecond, UInt32.toNat_ofNat_of_lt' fits]
        omega
      · cases found
  · rintro ⟨rfl, rfl⟩
    exact ofSigned?_signedSecond r

end Rule

namespace Header

variable {h : Header} {g : Grammar}

theorem takes_checkSize (h : Header) (ruleBits : Nat) :
    Takes (h.checkSize ruleBits) fun taken _ => taken = [] := by
  intro r _ r' passed
  rw [checkSize_apply] at passed
  split at passed
  · cases passed
  · cases passed
    exact ⟨[], rfl, rfl, rfl⟩

/-- A sound grammar that is as this header says, its root included. -/
structure Declares (h : Header) (g : Grammar) : Prop extends h.Accepts g where
  rootSymbol : h.rootSymbol = .ok g.root
  narrow : h.root < idSpace

/-- At most the root of the header is not that of the grammar. -/
theorem Declares.eq_ofGrammar (declares : h.Declares g) :
    h = { ofGrammar g with root := h.root } := by
  obtain ⟨isEmpty, size, terminals, root, blocks⟩ := h
  simp [ofGrammar, ← declares.size, ← declares.blocks, ← declares.terminals, ← declares.isEmpty]

/-- The root says what it is, unless the grammar is empty. -/
theorem Declares.eq_ofGrammar_of_nonempty (declares : h.Declares g) (some : g.isEmpty = false) :
    h = ofGrammar g := by
  have found := declares.rootSymbol
  rw [Header.rootSymbol, declares.isEmpty, some, if_neg Bool.false_ne_true,
    if_pos declares.narrow, Except.ok.injEq] at found
  have root : (ofGrammar g).root = h.root := by
    rw [ofGrammar, ← found]
    exact UInt32.toNat_ofNat_of_lt' declares.narrow
  rw [declares.eq_ofGrammar, ← root]

end Header

namespace PlainFormat

variable {h : Header} {g : Grammar} {bytes : List UInt8} {i : Nat}

/-- How many bits a grammar takes. -/
def bitCount (g : Grammar) : Nat := 225 + 96 * g.size

@[simp] theorem length_headerBits (h : Header) : (headerBits h).length = 225 := by
  simp [headerBits]

theorem length_flatMap_ruleBits (g : Grammar) :
    (g.bareRules.flatMap ruleBits).length = 96 * g.size := by
  simp [List.length_flatMap, length_ruleBits, Grammar.length_bareRules, Nat.mul_comm]

theorem length_bits (g : Grammar) : (bits g).length = bitCount g := by
  rw [bits, List.length_append, length_headerBits, length_flatMap_ruleBits, bitCount]

theorem takes_readHeader :
    Takes readHeader fun taken h => taken = headerBits h ∧ h.root < idSpace := by
  apply Takes.bit.bind
  rintro _ isEmpty rfl
  apply (Takes.word (by decide)).bind
  rintro _ size ⟨rfl, _⟩
  apply (Takes.word (by decide)).bind
  rintro _ terminals ⟨rfl, _⟩
  apply (Takes.bits 32).bind
  rintro _ root ⟨rfl, narrow⟩
  apply (Takes.word (by decide)).bind
  rintro _ blocks ⟨rfl, _⟩
  apply Takes.pure
  exact ⟨by simp [headerBits], narrow⟩

theorem takes_readRule : Takes readRule fun taken r => taken = ruleBits r := by
  apply (Takes.bits 32).bind
  rintro _ first ⟨rfl, smallFirst⟩
  apply (Takes.word (by decide)).bind
  rintro _ second ⟨rfl, smallSecond⟩
  dsimp only
  cases found : Rule.ofSigned? (.ofNat first) ((second : Int).bmod wordSpace) with
  | none =>
      apply Takes.position.bind
      rintro _ place rfl
      exact Takes.throw _
  | some r =>
      obtain ⟨hfirst, hsecond⟩ := Rule.ofSigned?_eq_some_iff.mp found
      have low : r.first.toNat = first := by
        rw [hfirst]
        exact UInt32.toNat_ofNat_of_lt' smallFirst
      have high : (r.signedSecond % wordSpace).toNat = second := by
        rw [hsecond, Int.bmod_emod]
        exact Nat.mod_eq_of_lt smallSecond
      apply Takes.pure
      rw [ruleBits, low, high, List.append_nil]

/-- A grammar is read from the bits of a header that declares it and from those of its rules. -/
theorem takes_read :
    Takes read fun taken g =>
      ∃ h : Header, h.Declares g ∧ taken = headerBits h ++ g.bareRules.flatMap ruleBits := by
  apply takes_readHeader.bind
  rintro _ h ⟨rfl, narrow⟩
  apply (h.takes_checkSize 96).bind
  rintro _ _ rfl
  apply (Takes.collect takes_readRule _ _).bind
  rintro _ rules ⟨values, same, long, rfl⟩
  apply Takes.ofExcept
  intro g made
  obtain ⟨_, blocks, made⟩ := Failing.bind_eq_ok_iff.mp made
  obtain ⟨root, found, made⟩ := Failing.bind_eq_ok_iff.mp made
  have count : rules.toList.length = h.size := by simp [same, long]
  obtain ⟨_, sameRules, _, _⟩ := Grammar.ofRules_ok made
  have rootEq : g.root = root := sameRules.root
  have bare : g.bareRules = values := by
    rw [sameRules.bareRules, Grammar.bareRules_loose, same]
    rfl
  refine ⟨h, ⟨Header.accepts_ofRules count blocks found made, rootEq ▸ found, narrow⟩, ?_⟩
  rw [bare]
  simp

/-! ### The field of the root -/

/-- Where the root is among the bits. -/
def IsRootBit (i : Nat) : Prop := 129 ≤ i ∧ i < 161

instance (i : Nat) : Decidable (IsRootBit i) := inferInstanceAs (Decidable (_ ∧ _))

/-- The bits before the root. -/
def beforeRoot (h : Header) : List Bool :=
  h.isEmpty :: Bits.ofNat 64 h.size ++ Bits.ofNat 64 h.terminals

theorem length_beforeRoot (h : Header) : (beforeRoot h).length = 129 := by
  simp [beforeRoot]

theorem headerBits_append (h : Header) (tail : List Bool) :
    headerBits h ++ tail =
      beforeRoot h ++ (Bits.ofNat 32 h.root ++ (Bits.ofNat 64 h.blocks ++ tail)) := by
  simp [headerBits, beforeRoot]

/-- Without a root its field is zero. -/
theorem getElem?_root (zero : h.root = 0) (tail : List Bool) (inside : IsRootBit i) :
    (headerBits h ++ tail)[i]? = some false := by
  obtain ⟨low, high⟩ := inside
  rw [headerBits_append, List.getElem?_append_right (by rw [length_beforeRoot]; exact low),
    length_beforeRoot, List.getElem?_append_left (by rw [Bits.length_ofNat]; omega), zero,
    Bits.ofNat_zero, List.getElem?_replicate, if_pos (by omega)]

/-- A field does not matter outside its place. -/
theorem getElem?_append_field {front old new back : List Bool} (same : new.length = old.length)
    (outside : i < front.length ∨ front.length + old.length ≤ i) :
    (front ++ (new ++ back))[i]? = (front ++ (old ++ back))[i]? := by
  obtain before | behind := outside
  · rw [List.getElem?_append_left before, List.getElem?_append_left before]
  · have total : (front ++ new).length = (front ++ old).length := by
      rw [List.length_append, List.length_append, same]
    have past : (front ++ old).length ≤ i := List.length_append ▸ behind
    rw [← List.append_assoc, ← List.append_assoc, List.getElem?_append_right (total ▸ past),
      List.getElem?_append_right past, total]

/-- Other bits do not depend on the root. -/
theorem getElem?_outside (h : Header) (root : Nat) (tail : List Bool) (outside : ¬ IsRootBit i) :
    (headerBits { h with root } ++ tail)[i]? = (headerBits h ++ tail)[i]? := by
  rw [headerBits_append, headerBits_append]
  apply getElem?_append_field
  · rw [Bits.length_ofNat, Bits.length_ofNat]
  · rw [length_beforeRoot, Bits.length_ofNat]
    unfold IsRootBit at outside
    omega

/-- What is stored of a grammar has the bits of any header that declares it, or there is no root
and its field is zero. -/
theorem getElem?_bits (declares : h.Declares g) (i : Nat) :
    (bits g)[i]? =
      if g.isEmpty = true ∧ IsRootBit i then some false
      else (headerBits h ++ g.bareRules.flatMap ruleBits)[i]? := by
  cases empty : g.isEmpty with
  | false =>
      rw [if_neg (by simp), declares.eq_ofGrammar_of_nonempty empty]
      rfl
  | true =>
      have none : g.root = none := by simpa [Grammar.isEmpty] using empty
      by_cases inside : IsRootBit i
      · rw [if_pos ⟨rfl, inside⟩]
        exact getElem?_root (by simp [Header.ofGrammar, none]) _ inside
      · rw [if_neg (fun both => inside both.2), declares.eq_ofGrammar]
        exact (getElem?_outside _ _ _ inside).symm

/-- The first bit tells whether the grammar is empty. -/
theorem getElem?_zero (h : Header) (tail : List Bool) :
    (headerBits h ++ tail)[0]? = some h.isEmpty := rfl

/-- What was read begins with the bits of a header and of the rules, and reading stops there. -/
theorem exists_of_decode (made : decode bytes = .ok g) :
    ∃ h rest, h.Declares g ∧ read (.ofBytes bytes) = .ok g ⟨bitCount g, rest⟩ ∧
      Bits.unpack bytes = headerBits h ++ g.bareRules.flatMap ruleBits ++ rest := by
  obtain ⟨⟨position, rest⟩, done⟩ := Read.exists_of_run made
  obtain ⟨taken, split, place, h, declares, rfl⟩ := takes_read _ g _ done
  have position_eq : position = bitCount g := by
    rw [bitCount, ← length_flatMap_ruleBits, ← length_headerBits h, ← List.length_append]
    exact place.trans (Nat.zero_add _)
  exact ⟨h, rest, declares, position_eq ▸ done, split⟩

/-- The bits that a grammar with a root is read from are those that are stored of it. -/
theorem take_unpack_of_decode (made : decode bytes = .ok g) (some : g.isEmpty = false) :
    (Bits.unpack bytes).take (bitCount g) = bits g := by
  obtain ⟨h, rest, declares, -, split⟩ := exists_of_decode made
  rw [split, declares.eq_ofGrammar_of_nonempty some, ← length_bits]
  exact List.take_left

/-- A grammar that was read is stored again in no more bytes than it was read from, and with the
bits that the reader took, except that the root is zero if the flag says that the grammar is empty.
What fills up the last byte is zero. So unless it is empty, a grammar is read from one sequence of
bits only, if one leaves out those that the reader does not take. -/
theorem encode_of_decode {bytes : List UInt8} {g : Grammar} (made : decode bytes = .ok g) :
    (encode g).length = (bitCount g + 7) / 8 ∧ (encode g).length ≤ bytes.length ∧
    (∃ rest, read (.ofBytes bytes) = .ok g ⟨bitCount g, rest⟩) ∧
    (Bits.unpack bytes)[0]? = some g.isEmpty ∧
    (∀ i < bitCount g, (Bits.unpack (encode g))[i]? =
      if (Bits.unpack bytes)[0]? = some true ∧ IsRootBit i then some false
      else (Bits.unpack bytes)[i]?) ∧
    (∀ bit ∈ (Bits.unpack (encode g)).drop (bitCount g), bit = false) ∧
    (g.isEmpty = false → ∀ other, decode other = .ok g →
      (Bits.unpack other).take (bitCount g) = (Bits.unpack bytes).take (bitCount g)) := by
  obtain ⟨h, rest, declares, done, split⟩ := exists_of_decode made
  have long : (headerBits h ++ g.bareRules.flatMap ruleBits).length = bitCount g := by
    rw [List.length_append, length_headerBits, length_flatMap_ruleBits, bitCount]
  have stored : Bits.unpack (encode g) = bits g ++ Bits.padding (bits g) :=
    Bits.unpack_pack (bits g)
  have size : (encode g).length = (bitCount g + 7) / 8 := by
    rw [encode, Bits.length_pack, length_bits]
  have flag : (Bits.unpack bytes)[0]? = some g.isEmpty := by
    rw [split, List.append_assoc, getElem?_zero, declares.isEmpty]
  refine ⟨size, ?_, ⟨rest, done⟩, flag, ?_, ?_, ?_⟩
  · have total := congrArg List.length split
    rw [Bits.length_unpack, List.length_append, long] at total
    omega
  · intro i inside
    have kept : (Bits.unpack bytes)[i]? = (headerBits h ++ g.bareRules.flatMap ruleBits)[i]? := by
      rw [split]
      exact List.getElem?_append_left (long ▸ inside)
    have front : (Bits.unpack (encode g))[i]? = (bits g)[i]? := by
      rw [stored]
      exact List.getElem?_append_left (length_bits g ▸ inside)
    simp only [front, getElem?_bits declares, kept, flag, Option.some.injEq]
  · intro bit member
    rw [stored, ← length_bits, List.drop_left] at member
    exact List.eq_of_mem_replicate member
  · intro some other made'
    rw [take_unpack_of_decode made' some, take_unpack_of_decode made some]

/-- The grammar without its root. -/
def rootless : Grammar := { Format.pairOfBlock with root := none }

/-- What is stored of a grammar with a root, with the flag set that it has none and with one more
byte behind it. -/
def hiddenRoot : List UInt8 :=
  match encode Format.pairOfBlock with
  | [] => []
  | first :: rest => (first + 1) :: rest ++ [255]

/-- What is stored of a grammar, with ones filling up the last byte. -/
def filled : List UInt8 := (encode Format.pairOfBlock).dropLast ++ [254]

theorem encode_of_decode_hiddenRoot :
    decode hiddenRoot = .ok rootless ∧
    (encode rootless).length = 53 ∧ hiddenRoot.length = 54 ∧
    (Bits.unpack hiddenRoot)[130]? = some true ∧
    (∀ i < 417, (Bits.unpack (encode rootless))[i]? =
      if IsRootBit i then some false else (Bits.unpack hiddenRoot)[i]?) ∧
    decode filled = .ok Format.pairOfBlock ∧
    (Bits.unpack (encode Format.pairOfBlock)).take 417 = (Bits.unpack filled).take 417 := by
  have hidden : decode hiddenRoot = .ok rootless := by decide +kernel
  have stored : decode (encode Format.pairOfBlock) = .ok Format.pairOfBlock := by decide +kernel
  have padded : decode filled = .ok Format.pairOfBlock := by decide +kernel
  obtain ⟨size, -, -, flag, kept, -, -⟩ := encode_of_decode hidden
  obtain ⟨-, -, -, -, -, -, unique⟩ := encode_of_decode padded
  refine ⟨hidden, size, by decide +kernel, by decide +kernel, fun i inside => ?_, padded,
    unique rfl _ stored⟩
  rw [kept i inside, flag]
  simp [rootless, Grammar.isEmpty]

end PlainFormat

end RunGrammar
