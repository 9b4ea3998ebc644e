import Mathlib
import RunGrammar.Proofs.Bits.Careful
import RunGrammar.Proofs.Bits.Codes

/-!
# Writing bits through a word

Bits are collected in a word of 64 bits, above those that are held there, and
whole bytes leave it at the lower end. As for reading, every step on words is
guarded: shifts by less than the width of a word that lose no bits, counts that
fit a byte, and counts of bits that stay within the number of bits there are.

A `Sink` shows the bits that were written. Every guarded action appends to them
the bits that its field stands for and is never refused, so the bytes in the end
are these bits, packed. What was written is then read back field by field, from
the bits as well as through a word, and after every field reading is as far as
writing was.
-/

namespace RunGrammar

/-- Some bytes that are being written. -/
structure Sink where
  bytes : Array UInt8 := #[]
  /-- The bits that are in no byte yet, and how many they are. -/
  word : Nat := 0
  held : Nat := 0
  /-- How many bits were written. -/
  written : Nat := 0

namespace Sink

/-- The lowest bits of the word. -/
def lowByte (s : Sink) : UInt8 := .ofNat (s.word &&& 255)

/-- Moves one byte out of the word. -/
def unload (s : Sink) : Sink :=
  { s with bytes := s.bytes.push s.lowByte, word := s.word >>> 8, held := s.held - 8 }

/-- Moves whole bytes out of the word. -/
def flush (s : Sink) : Sink := if 8 ≤ s.held then flush s.unload else s
termination_by s.held
decreasing_by
  simp only [unload]
  omega

/-- Takes in the bits of a number, above those that are held. -/
def load (count value : Nat) (s : Sink) : Sink :=
  { s with
    word := s.word ||| value <<< s.held
    held := s.held + count
    written := s.written + count }

/-- The bytes, of which the last one is filled up with zeros. -/
def finish (s : Sink) : List UInt8 :=
  (if 0 < s.held then s.bytes.push s.lowByte else s.bytes).toList

/-- The bits that were written. -/
def view (s : Sink) : List Bool := Bits.unpack s.bytes.toList ++ Bits.ofNat s.held s.word

/-- No bit is lost or made up. -/
structure Balanced (s : Sink) : Prop where
  word_lt : s.word < 2 ^ s.held
  balance : s.written = 8 * s.bytes.size + s.held

/-- Between two actions less than a byte is held. -/
structure Sound (s : Sink) : Prop extends s.Balanced where
  held_lt : s.held < 8

variable {s : Sink}

theorem sound_empty : Sound {} := ⟨⟨Nat.one_pos, rfl⟩, by decide⟩

/-- The count of bits is the number of the bits. -/
theorem Balanced.length_view (bal : s.Balanced) : s.view.length = s.written := by
  simp [view, bal.balance]

theorem toNat_lowByte (s : Sink) : s.lowByte.toNat = s.word % 2 ^ 8 := by
  have low : s.word &&& 255 = s.word % 2 ^ 8 := Nat.and_two_pow_sub_one_eq_mod s.word 8
  rw [lowByte, UInt8.toNat_ofNat', low, Nat.mod_mod]

theorem Balanced.unload (bal : s.Balanced) (full : 8 ≤ s.held) : s.unload.Balanced where
  word_lt := by
    show s.word >>> 8 < 2 ^ (s.held - 8)
    rw [Nat.shiftRight_eq_div_pow]
    apply Nat.div_lt_of_lt_mul
    rw [← Nat.pow_add, Nat.add_sub_cancel' full]
    exact bal.word_lt
  balance := by
    have := bal.balance
    simp only [Sink.unload, Array.size_push]
    omega

theorem view_unload (full : 8 ≤ s.held) : s.unload.view = s.view := by
  have byte : Bits.unpack [s.lowByte] = Bits.ofNat 8 s.word := by
    rw [Bits.unpack, List.flatMap_singleton, toNat_lowByte, Bits.ofNat_mod]
  simp only [view, unload, Array.toList_push, Bits.unpack_append, byte,
    Bits.ofNat_shiftRight full s.word, List.append_assoc]

/-- Less than a byte is held afterwards, and the bits are the same. -/
theorem Balanced.flush (bal : s.Balanced) : s.flush.Sound ∧ s.flush.view = s.view := by
  fun_induction Sink.flush s with
  | case1 s full ih =>
      obtain ⟨sound, same⟩ := ih (bal.unload full)
      exact ⟨sound, same.trans (view_unload full)⟩
  | case2 s few => exact ⟨⟨bal, Nat.lt_of_not_le few⟩, rfl⟩

section Load

variable {count value : Nat} (sound : s.Sound) (low : value < 2 ^ count)

include sound low

theorem Sound.load : (s.load count value).Balanced where
  word_lt := Bits.or_shiftLeft_lt sound.word_lt low
  balance := by
    have := sound.balance
    simp only [Sink.load]
    omega

/-- Up to 32 bits fit into the word above those that are held. -/
theorem Sound.mul_two_pow_lt (few : count ≤ 32) : value * 2 ^ s.held < wordSpace := by
  have held := sound.held_lt
  have space : wordSpace = 2 ^ 64 := rfl
  have room : 2 ^ count * 2 ^ s.held ≤ 2 ^ 40 := by
    rw [← Nat.pow_add]
    exact Nat.pow_le_pow_right (by decide) (by omega)
  have := Nat.mul_lt_mul_of_pos_right low (Nat.two_pow_pos s.held)
  omega

omit low in
theorem Sound.view_load : (s.load count value).view = s.view ++ Bits.ofNat count value := by
  simp only [view, Sink.load, Bits.ofNat_or_shiftLeft sound.word_lt, List.append_assoc]

end Load

/-- The bytes are the bits, packed. -/
theorem Sound.finish_eq (sound : s.Sound) : s.finish = Bits.pack s.view := by
  have whole : Bits.pack s.view = (Bits.packOnto s.bytes (Bits.ofNat s.held s.word)).toList := by
    simp [Bits.pack, view, Bits.packOnto_unpack]
  rw [whole, finish]
  by_cases some : 0 < s.held
  · have short : (Bits.ofNat s.held s.word).length = s.held := Bits.length_ofNat _ _
    have byte : UInt8.ofNat (Bits.toNat (Bits.ofNat s.held s.word)) = s.lowByte := by
      have small : s.word < 2 ^ 8 :=
        Nat.lt_of_lt_of_le sound.word_lt (Nat.pow_le_pow_right (by decide) sound.held_lt.le)
      apply UInt8.toNat_inj.mp
      rw [toNat_lowByte, UInt8.toNat_ofNat', Bits.toNat_ofNat, Nat.mod_eq_of_lt sound.word_lt]
    have filled := Bits.packOnto_of_length_le s.bytes
      (List.ne_nil_of_length_pos (short.symm ▸ some)) (short.symm ▸ sound.held_lt.le)
    rw [if_pos some, filled, byte]
  · have none : s.held = 0 := Nat.eq_zero_of_not_pos some
    rw [if_neg some, none, Bits.ofNat, Bits.packOnto]

end Sink

/-- Guarded actions that put bits into a sink. -/
abbrev Write := Sink → Guarded Sink

namespace Write

/-- Puts in the low bits of a number, up to 32 of them. -/
def bits (count value : Nat) : Write := fun s => do
  Guarded.demand (count ≤ 32)
  if count = 0 then return s
  else
    let mask ← Guarded.check (Checked.sub (← Guarded.check (Checked.shiftLeft 1 count)) 1)
    let moved ← Guarded.check (Checked.shiftLeft (value &&& mask) s.held)
    let held ← Guarded.check (Checked.upTo 255 (s.held + count))
    let written ← Guarded.check (Checked.upTo (8 * s.bytes.size + held) (s.written + count))
    return Sink.flush { s with word := s.word ||| moved, held, written }

/-- Puts in the low bits of a number, up to 64 of them, in two halves. -/
def word (count value : Nat) : Write := fun s => do
  Guarded.demand (count ≤ 64)
  let s ← bits (min count 32) (value % idSpace) s
  bits (← Guarded.check (Checked.sub count (min count 32))) ((value >>> 32) % idSpace) s

def bit (value : Bool) : Write := bits 1 value.toNat

def zeros : (count : Nat) → Write
  | 0, s => return s
  | count + 1, s => do zeros count (← bit false s)

/-- How many of the bits of a word are zeros above the leading one. -/
def leadingZeros (value : Nat) : Nat := if value = 0 then 64 else 63 - value.log2

/-- Puts in the code of a positive word. -/
def gamma (value : Nat) : Write := fun s => do
  Guarded.demand (1 ≤ value)
  let width ← Guarded.check (Checked.sub (← Guarded.check (Checked.sub 64 (leadingZeros value))) 1)
  let s ← zeros width s
  let s ← bit true s
  word width value s

def gammaFromZero (value : Nat) : Write := fun s => do
  Guarded.demand (value < wordSpace - 1)
  gamma (min (value + 1) (wordSpace - 1)) s

def signed (value : Int) : Write := fun s => do
  let s ← bit (decide (value < 0)) s
  gammaFromZero value.natAbs s

def field : Field → Write
  | .bits width value => bits width value
  | .word width value => word width value
  | .bit value => bit value
  | .gamma value => gamma value
  | .gammaFromZero value => gammaFromZero value
  | .signed value => signed value

/-- Puts in fields one after the other and tells how many bits there are after each. -/
def fields : List Field → Sink → Guarded (List Nat × Sink)
  | [], s => return ([], s)
  | f :: fs, s => do
    let s ← field f s
    let (totals, last) ← fields fs s
    return (s.written :: totals, last)

end Write

namespace Careful

/-- Takes out fields of known shapes, each with the position after it. -/
def fields : List Shape → Careful (List (Field × Nat))
  | [] => return []
  | shape :: shapes => do
    let f ← field shape
    let position ← position
    let rest ← fields shapes
    return (f, position) :: rest

end Careful

namespace Write

/-- The action is never refused and does not fail, and it puts these bits behind the others. -/
def Appends (write : Write) (bits : List Bool) : Prop :=
  ∀ s : Sink, s.Sound → ∃ s', write s = .of (.ok s') ∧ s'.Sound ∧ s'.view = s.view ++ bits

namespace Appends

variable {write first second : Write} {front back : List Bool}

theorem nil : Appends (fun s => return s) [] :=
  fun s sound => ⟨s, rfl, sound, (List.append_nil _).symm⟩

theorem bind (h : Appends first front) (h' : Appends second back) :
    Appends (fun s => first s >>= second) (front ++ back) := by
  intro s sound
  obtain ⟨s', done, sound', seen⟩ := h s sound
  obtain ⟨s'', done', sound'', seen'⟩ := h' s' sound'
  refine ⟨s'', ?_, sound'', ?_⟩
  · show first s >>= second = _
    rw [done, Guarded.of_ok_bind, done']
  · rw [seen', seen, List.append_assoc]

theorem bits {count : Nat} (few : count ≤ 32) (value : Nat) :
    Appends (Write.bits count value) (Bits.ofNat count value) := by
  intro s sound
  by_cases none : count = 0
  · subst none
    exact ⟨s, rfl, sound, (List.append_nil _).symm⟩
  have width := sound.held_lt
  obtain ⟨one, mask⟩ := Checked.ones_of_le few
  have masked : value &&& (1 <<< count - 1) = value % 2 ^ count := by
    rw [Nat.one_shiftLeft, Nat.and_two_pow_sub_one_eq_mod]
  have low : value % 2 ^ count < 2 ^ count := Nat.mod_lt _ (Nat.two_pow_pos count)
  have shifted := Checked.shiftLeft_of_lt (Nat.lt_trans width (by decide))
    (sound.mul_two_pow_lt low few)
  have held : Checked.upTo 255 (s.held + count) = some (s.held + count) :=
    Checked.upTo_of_le (by omega)
  have written : Checked.upTo (8 * s.bytes.size + (s.held + count)) (s.written + count) =
      some (s.written + count) :=
    Checked.upTo_of_le (by have := sound.balance; omega)
  have run : Write.bits count value s =
      .of (.ok (s.load count (value % 2 ^ count)).flush) := by
    simp only [Write.bits, Guarded.demand_of_true few, Guarded.of_ok_bind, if_neg none, one, mask,
      masked, shifted, held, written, Guarded.check_some]
    rfl
  obtain ⟨sound', same⟩ := (sound.load low).flush
  exact ⟨_, run, sound', by rw [same, sound.view_load, Bits.ofNat_mod]⟩

/-- The halves of a word lie behind each other. -/
theorem word {count : Nat} (few : count ≤ 64) (value : Nat) :
    Appends (Write.word count value) (Bits.ofNat count value) := by
  have split : Bits.ofNat count value =
      Bits.ofNat (min count 32) (value % idSpace) ++
        Bits.ofNat (count - min count 32) ((value >>> 32) % idSpace) := by
    have low := Bits.ofNat_mod_of_le (Nat.min_le_right count 32) value
    have cut := Bits.ofNat_shiftRight (Nat.min_le_left count 32) value
    have high : Bits.ofNat (count - min count 32) ((value >>> 32) % idSpace) =
        Bits.ofNat (count - min count 32) (value >>> min count 32) := by
      obtain narrow | wide := Nat.le_total count 32
      · have none : count - min count 32 = 0 := by omega
        rw [none, Bits.ofNat, Bits.ofNat]
      · rw [Nat.min_eq_right wide]
        exact Bits.ofNat_mod_of_le (show count - 32 ≤ 32 by omega) (value >>> 32)
    exact cut.trans (congrArg₂ (· ++ ·) low.symm high.symm)
  have rest : Checked.sub count (min count 32) = some (count - min count 32) :=
    Checked.sub_of_le (Nat.min_le_left _ _)
  have halves := (bits (Nat.min_le_right count 32) (value % idSpace)).bind
    (bits (show count - min count 32 ≤ 32 by omega) ((value >>> 32) % idSpace))
  intro s sound
  obtain ⟨s', done, sound', seen⟩ := halves s sound
  refine ⟨s', ?_, sound', split ▸ seen⟩
  simp only [Write.word, Guarded.demand_of_true few, rest, Guarded.of_ok_bind, Guarded.check_some]
  exact done

theorem bit (value : Bool) : Appends (Write.bit value) [value] := by
  have one := bits (show 1 ≤ 32 by decide) value.toNat
  cases value <;> exact one

theorem zeros (count : Nat) : Appends (Write.zeros count) (List.replicate count false) := by
  induction count with
  | zero => exact nil
  | succ count ih => exact (bit false).bind ih

theorem gamma {value : Nat} (pos : 1 ≤ value) (fits : value < wordSpace) :
    Appends (Write.gamma value) (Bits.gamma value) := by
  have some : value ≠ 0 := Nat.ne_of_gt pos
  have width : value.log2 < 64 := (Nat.log2_lt some).mpr fits
  have counted : Checked.sub 64 (leadingZeros value) = .some (value.log2 + 1) := by
    rw [leadingZeros, if_neg some, Checked.sub_of_le (by omega)]
    congr 1
    omega
  have behind : Checked.sub (value.log2 + 1) 1 = .some value.log2 := Checked.sub_of_le (by omega)
  have code := (zeros value.log2).bind ((bit true).bind (word width.le value))
  intro s sound
  obtain ⟨s', done, sound', seen⟩ := code s sound
  refine ⟨s', ?_, sound', seen⟩
  simp only [Write.gamma, Guarded.demand_of_true pos, counted, behind, Guarded.of_ok_bind,
    Guarded.check_some]
  exact done

theorem gammaFromZero {value : Nat} (fits : value < wordSpace - 1) :
    Appends (Write.gammaFromZero value) (Bits.gammaFromZero value) := by
  have code : Appends (Write.gamma (min (value + 1) (wordSpace - 1))) (Bits.gammaFromZero value) :=
    gamma (by omega) (by omega)
  intro s sound
  obtain ⟨s', done, rest⟩ := code s sound
  refine ⟨s', ?_, rest⟩
  simp only [Write.gammaFromZero, Guarded.demand_of_true fits, Guarded.of_ok_bind]
  exact done

theorem signed {value : Int} (fits : Bits.isSignedWord value = true) :
    Appends (Write.signed value) (Bits.signed value) :=
  (bit _).bind (gammaFromZero (Bits.natAbs_lt_of_isSignedWord fits))

end Appends

end Write

namespace Field

/-- The values that can be stored: fixed widths of up to 32 or 64 bits, positive words, words but
for the largest, and signed words. -/
def Writable : Field → Prop
  | bits width _ => width ≤ 32
  | word width _ => width ≤ 64
  | bit _ => True
  | gamma value => 1 ≤ value ∧ value < wordSpace
  | gammaFromZero value => value < wordSpace - 1
  | signed value => Bits.isSignedWord value = true

instance : DecidablePred Writable
  | bits width _ => inferInstanceAs (Decidable (width ≤ 32))
  | word width _ => inferInstanceAs (Decidable (width ≤ 64))
  | bit _ => inferInstanceAs (Decidable True)
  | gamma value => inferInstanceAs (Decidable (1 ≤ value ∧ value < wordSpace))
  | gammaFromZero value => inferInstanceAs (Decidable (value < wordSpace - 1))
  | signed value => inferInstanceAs (Decidable (Bits.isSignedWord value = true))

/-- The field as it is stored: of a fixed width, it has the low bits of its value. -/
def low : Field → Field
  | bits width value => bits width (value % 2 ^ width)
  | word width value => word width (value % 2 ^ width)
  | f => f

/-- How many bits there are after each field, with so many before the first. -/
def totals : (before : Nat) → List Field → List Nat
  | _, [] => []
  | before, f :: fs => (before + f.encode.length) :: totals (before + f.encode.length) fs

/-- Reads fields of known shapes, each with the position after it. -/
def readAll : List Shape → Read (List (Field × Nat))
  | [] => return []
  | shape :: shapes => do
    let f ← read shape
    let position ← Read.position
    let rest ← readAll shapes
    return (f, position) :: rest

variable {f : Field} {fs : List Field}

theorem reads_low (writable : f.Writable) : Reads (read f.shape) f.encode f.low := by
  cases f with
  | bits width value => exact (Reads.bits_ofNat width value).map
  | word width value => exact (Reads.word_ofNat width value writable).map
  | bit value => exact (Reads.bit value).map
  | gamma value => exact (Reads.gamma (Nat.ne_of_gt writable.1) writable.2).map
  | gammaFromZero value => exact (Reads.gammaFromZero writable).map
  | signed value => exact (Reads.signed writable).map

theorem appends_encode (writable : f.Writable) : Write.Appends (Write.field f) f.encode := by
  cases f with
  | bits width value => exact .bits writable value
  | word width value => exact .word writable value
  | bit value => exact .bit value
  | gamma value => exact .gamma writable.1 writable.2
  | gammaFromZero value => exact .gammaFromZero writable
  | signed value => exact .signed writable

/-- What can be written has a shape that can be read. -/
theorem Writable.readable (writable : f.Writable) : f.shape.Readable := by
  cases f with
  | bits | word => exact writable
  | bit | gamma | gammaFromZero | signed => trivial

/-- Every field is read back with the number of bits up to its end. -/
theorem readAll_encode (writable : ∀ f ∈ fs, f.Writable) (position : Nat) (rest : List Bool) :
    readAll (fs.map shape) ⟨position, fs.flatMap encode ++ rest⟩ =
      .ok ((fs.map low).zip (totals position fs))
        ⟨position + (fs.flatMap encode).length, rest⟩ := by
  induction fs generalizing position with
  | nil => rfl
  | cons f fs ih =>
      have first := reads_low (writable f (by simp)) position (fs.flatMap encode ++ rest)
      have others := ih (fun f' h => writable f' (by simp [h])) (position + f.encode.length)
      have behind : (Read.position ⟨position + f.encode.length, fs.flatMap encode ++ rest⟩) =
          .ok (position + f.encode.length)
            ⟨position + f.encode.length, fs.flatMap encode ++ rest⟩ := rfl
      simp only [List.map_cons, List.flatMap_cons, List.append_assoc, readAll]
      rw [Failing.bind_of_ok first, Failing.bind_of_ok behind, Failing.bind_of_ok others]
      simp only [totals, List.zip_cons_cons, List.length_append, Nat.add_assoc]
      rfl

theorem follows_readAll (writable : ∀ f ∈ fs, f.Writable) :
    Careful.Follows (Careful.fields (fs.map shape)) (readAll (fs.map shape)) fun _ => True := by
  induction fs with
  | nil => exact .pure trivial
  | cons f fs ih =>
      apply (Careful.Follows.field (writable f (by simp)).readable).bind
      intro _ _
      apply Careful.Follows.position.bind
      intro _ _
      apply (ih fun f' h => writable f' (by simp [h])).bind
      intro _ _
      exact .pure trivial

/-- Fields are put behind each other, and every total is the number of bits so far. -/
theorem write_fields (writable : ∀ f ∈ fs, f.Writable) {s : Sink} (sound : s.Sound) :
    ∃ s', Write.fields fs s = .of (.ok (totals s.written fs, s')) ∧ s'.Sound ∧
      s'.view = s.view ++ fs.flatMap encode := by
  induction fs generalizing s with
  | nil => exact ⟨s, rfl, sound, (List.append_nil _).symm⟩
  | cons f fs ih =>
      obtain ⟨s', done, sound', seen⟩ := appends_encode (writable f (by simp)) s sound
      obtain ⟨s'', done', sound'', seen'⟩ := ih (fun f' h => writable f' (by simp [h])) sound'
      have counted : s'.written = s.written + f.encode.length := by
        rw [← sound'.length_view, ← sound.length_view, seen, List.length_append]
      refine ⟨s'', ?_, sound'', ?_⟩
      · simp only [Write.fields, done, done', Guarded.of_ok_bind, totals, counted]
        rfl
      · rw [seen', seen, List.flatMap_cons, List.append_assoc]

/-- Fields of all kinds that are written one after the other through a word are read back through a
word, and from the bits, with their values, of which those of fixed widths lose what is above their
width. After every field as many bits are read as were written. The bytes are as many as it takes to
hold the bits, and no bit behind these is set. -/
theorem write_then_read (writable : ∀ f ∈ fs, f.Writable) :
    ∃ s, Write.fields fs {} = .of (.ok (totals 0 fs, s)) ∧
      s.finish = Bits.pack (fs.flatMap encode) ∧
      (readAll (fs.map shape)).run s.finish = .ok ((fs.map low).zip (totals 0 fs)) ∧
      (Careful.fields (fs.map shape)).run s.finish = .of (.ok ((fs.map low).zip (totals 0 fs))) ∧
      s.finish.length = (s.written + 7) / 8 ∧
      ∀ bit ∈ (Bits.unpack s.finish).drop s.written, bit = false := by
  obtain ⟨s, done, sound, seen⟩ := write_fields writable Sink.sound_empty
  have view : s.view = fs.flatMap encode := by simpa [Sink.view, Bits.unpack, Bits.ofNat] using seen
  have bytes : s.finish = Bits.pack (fs.flatMap encode) := view ▸ sound.finish_eq
  have written : s.written = (fs.flatMap encode).length := view ▸ sound.length_view.symm
  have back : (readAll (fs.map shape)).run s.finish = .ok ((fs.map low).zip (totals 0 fs)) := by
    apply Read.run_of_ok
    rw [bytes, BitReader.ofBytes, Bits.unpack_pack]
    exact readAll_encode writable 0 _
  refine ⟨s, done, bytes, back, ?_, ?_, ?_⟩
  · rw [(follows_readAll writable).run_eq, back]
  · rw [bytes, written, Bits.length_pack]
  · rw [bytes, written, Bits.unpack_pack, List.drop_left]
    exact fun bit h => List.eq_of_mem_replicate h

/-- Fields of all shapes with the largest values, among them two that do not fit. -/
def extremes : List Field :=
  [.bits 5 37, .word 64 (wordSpace - 1), .bit true, .gamma 1, .gamma (wordSpace - 1),
    .gammaFromZero 0, .gammaFromZero (wordSpace - 2), .word 33 (wordSpace - 1),
    .signed (-Bits.signedBound), .signed (Bits.signedBound - 1), .bits 0 1]

theorem write_then_read_extremes :
    (∀ f ∈ extremes, f.Writable) ∧
      ∃ s, Write.fields extremes {} = .of (.ok (totals 0 extremes, s)) ∧
        s.finish = Bits.pack (extremes.flatMap encode) ∧
        (readAll (extremes.map shape)).run s.finish =
          .ok ((extremes.map low).zip (totals 0 extremes)) ∧
        (Careful.fields (extremes.map shape)).run s.finish =
          .of (.ok ((extremes.map low).zip (totals 0 extremes))) ∧
        s.finish.length = (s.written + 7) / 8 ∧
        ∀ bit ∈ (Bits.unpack s.finish).drop s.written, bit = false :=
  have writable : ∀ f ∈ extremes, f.Writable := by decide
  ⟨writable, write_then_read writable⟩

end Field

end RunGrammar
