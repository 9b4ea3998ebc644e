import Mathlib
import RunGrammar.Proofs.Bits.Bitwise
import RunGrammar.Proofs.Bits.Buffer

/-!
# Reading on after a failure

A decoder stops at the first failure, but a reader need not. Here the buffer
outlives a failing action, and what it holds then matters: the bytes that were
taken in before they turned out to be too few stay in the word, which may hold
up to 39 bits between two actions.

None of this shows. After any number of actions, failing ones among them, the
buffer answers as a place in the string of all bits does. A number of up to 32
bits is read if there are so many, and otherwise the failure names the place and
leaves everything as it is. All other actions are composed of steps that take a
single bit, so one that fails midway has taken what its steps before took.
-/

namespace RunGrammar

/-- Guarded actions on a buffer that they leave behind when they fail, too. -/
abbrev Resuming := ExceptT Failure (StateT Buffer Option)

/-- A shape whose width is not too large. -/
def Shape.Readable : Shape → Prop
  | bits width => width ≤ 32
  | word width => width ≤ 64
  | _ => True

instance : DecidablePred Shape.Readable
  | .bits width => inferInstanceAs (Decidable (width ≤ 32))
  | .word width => inferInstanceAs (Decidable (width ≤ 64))
  | .bit | .gamma | .gammaFromZero | .signed => inferInstanceAs (Decidable True)

/-- What is seen of one action: its answer, and then the position and the number of bits left. -/
structure Attempt where
  answer : Except Failure Field
  position : Nat
  remaining : Nat

namespace Field

/-- Tries to read fields of these shapes one after the other, also after failures. -/
def attempts : List Shape → Read (List Attempt)
  | [] => return []
  | shape :: shapes => do
    let answer ← observing (read shape)
    let reader ← get
    let later ← attempts shapes
    return ⟨answer, reader.position, reader.remaining⟩ :: later

end Field

namespace Resuming

variable {α β : Type}

/-- Goes on if the condition holds and is refused otherwise. -/
def demand (p : Prop) [Decidable p] : Resuming Unit :=
  liftM (if p then some () else none : Option Unit)

/-- How many bits were taken out. -/
def position : Resuming Nat := return (← get).taken

/-- How many bits are left. -/
def remaining : Resuming Nat := fun b => return (.ok (← b.remaining), b)

/-- Takes a number of up to 32 bits. If there are not so many, all bytes have been taken in. -/
def bits (count : Nat) : Resuming Nat := fun b =>
  if 32 < count then none
  else if count = 0 then some (.ok 0, b)
  else do
    let b ← b.refill count
    if b.held < count then return (.error (.unexpectedEnd b.taken), b)
    else
      let (value, b) ← b.take count
      return (.ok value, b)

/-- Takes a number of up to 64 bits in two halves. -/
def word (count : Nat) : Resuming Nat := do
  demand (count ≤ 64)
  let low ← bits (min count 32)
  let high ← bits (← liftM (Checked.sub count (min count 32)))
  return low ||| (← liftM (Checked.shiftLeft high 32))

def bit : Resuming Bool := return (← bits 1) ≠ 0

/-- Takes zeros up to and including the next one, and counts them in a byte. -/
def zeros : (limit : Nat) → Resuming Nat
  | 0 => do throw (.malformed (.longGamma (← position)))
  | limit + 1 => do
    if ← bit then return 0
    else liftM (Checked.upTo 255 ((← zeros limit) + 1))

def gamma : Resuming Nat := do
  let width ← zeros 64
  let low ← word width
  return (← liftM (Checked.shiftLeft 1 width)) ||| low

def gammaFromZero : Resuming Nat := do liftM (Checked.sub (← gamma) 1)

/-- Takes a signed number. Whether a magnitude has a sign's range is asked, not assumed. -/
def signed : Resuming Int := do
  let negative ← bit
  let magnitude ← gammaFromZero
  let value : Int := if negative then -magnitude else magnitude
  if Bits.isSignedWord value then return value
  else throw (.malformed (.signedRange (← position)))

def field : Shape → Resuming Field
  | .bits width => return .bits width (← bits width)
  | .word width => return .word width (← word width)
  | .bit => return .bit (← bit)
  | .gamma => return .gamma (← gamma)
  | .gammaFromZero => return .gammaFromZero (← gammaFromZero)
  | .signed => return .signed (← signed)

/-- Tries to take out fields of these shapes one after the other, also after failures. -/
def attempts : List Shape → Resuming (List Attempt)
  | [] => return []
  | shape :: shapes => do
    let answer ← observing (field shape)
    let position ← position
    let remaining ← remaining
    let later ← attempts shapes
    return ⟨answer, position, remaining⟩ :: later

section Steps

variable {x : Resuming α} {f : α → Resuming β} {b b' : Buffer} {a : α} {e : Failure}

theorem bind_of_ok (h : x b = some (.ok a, b')) : (x >>= f) b = f a b' := by
  show StateT.bind x _ b = _
  rw [StateT.bind, h]
  rfl

theorem bind_of_error (h : x b = some (.error e, b')) : (x >>= f) b = some (.error e, b') := by
  show StateT.bind x _ b = _
  rw [StateT.bind, h]
  rfl

/-- An observed action does not fail; what it would have answered is a value. -/
theorem observing_of_eq {answer : Except Failure α} (h : x b = some (answer, b')) :
    (observing x : Resuming (Except Failure α)) b = some (.ok answer, b') := by
  show Option.bind ((x >>= fun a => (pure (.ok a) : Resuming (Except Failure α))) b) _ = _
  cases answer with
  | ok a =>
      rw [bind_of_ok h]
      rfl
  | error e =>
      rw [bind_of_error h]
      rfl

end Steps

/-- From every place in some bytes, the action gives the answer of the one on bits and leads to the
same place, also if it fails. All values are like this. -/
def Refines (x : Resuming α) (read : Read α) (post : α → Prop) : Prop :=
  ∀ (bytes : List UInt8) (b : Buffer), b.Within bytes →
    (∃ a b', x b = some (.ok a, b') ∧ read b.view = .ok a b'.view ∧ b'.Within bytes ∧ post a) ∨
    ∃ e b', x b = some (.error e, b') ∧ read b.view = .error e b'.view ∧ b'.Within bytes

namespace Refines

variable {x : Resuming α} {read : Read α} {P : α → Prop} {Q : β → Prop}

theorem pure {a : α} (post : P a) : Refines (Pure.pure a) (Pure.pure a) P :=
  fun _ b w => .inl ⟨a, b, rfl, rfl, w, post⟩

theorem throw (e : Failure) : Refines (MonadExcept.throw e) (MonadExcept.throw e) P :=
  fun _ b w => .inr ⟨e, b, rfl, rfl, w⟩

theorem bind {f : α → Resuming β} {g : α → Read β} (first : Refines x read P)
    (rest : ∀ a, P a → Refines (f a) (g a) Q) : Refines (x >>= f) (read >>= g) Q := by
  intro bytes b w
  obtain ⟨a, b', taken, same, w', post⟩ | ⟨e, b', failed, same, w'⟩ := first bytes b w
  · rw [bind_of_ok taken, Failing.bind_of_ok same]
    exact rest a post bytes b' w'
  · rw [bind_of_error failed, Failing.bind_of_error same]
    exact .inr ⟨e, b', rfl, rfl, w'⟩

/-- A guard that is passed has no counterpart. -/
theorem guard_bind {o : Option α} {a : α} {f : α → Resuming β} {read : Read β}
    (passed : o = some a) (rest : Refines (f a) read Q) :
    Refines ((liftM o : Resuming α) >>= f) read Q := by
  subst passed
  exact rest

theorem guarded {o : Option α} {a : α} (passed : o = some a) (post : P a) :
    Refines (liftM o) (Pure.pure a) P := by
  subst passed
  exact pure post

theorem position : Refines Resuming.position Read.position fun _ => True :=
  fun _ b w => .inl ⟨b.taken, b, rfl, rfl, w, trivial⟩

theorem bits {count : Nat} (few : count ≤ 32) :
    Refines (Resuming.bits count) (Read.bits count) (· < 2 ^ count) := by
  intro bytes b w
  by_cases none : count = 0
  · subst none
    exact .inl ⟨0, b, rfl, rfl, w, Nat.one_pos⟩
  obtain ⟨b', filled, w', same, exhausted⟩ := w.refill_answers few
  have position : b'.taken = b.taken := congrArg BitReader.position same
  by_cases short : b'.held < count
  · refine .inr ⟨.unexpectedEnd b.taken, b', ?_, ?_, w'⟩
    · simp [Resuming.bits, Nat.not_lt.mpr few, none, filled, short, position]
    · rw [same]
      exact Read.bits_of_lt (exhausted short)
  · obtain ⟨b'', taken, w'', seen⟩ := w'.take_answers few (Nat.not_lt.mp short)
    have all : count ≤ b.view.rest.length :=
      same ▸ Nat.le_trans (Nat.not_lt.mp short) b'.held_le_length
    have small := Bits.toNat_lt (b.view.rest.take count)
    rw [List.length_take_of_le all] at small
    rw [same] at taken seen
    rw [position] at seen
    refine .inl ⟨Bits.toNat (b.view.rest.take count), b'', ?_, ?_, w'', small⟩
    · simp [Resuming.bits, Nat.not_lt.mpr few, none, filled, short, taken]
    · rw [seen]
      exact Read.bits_of_le all

/-- Two halves of a number do not overlap. -/
theorem join_halves {count low high : Nat} (hl : low < 2 ^ min count 32)
    (hh : high < 2 ^ (count - min count 32)) (few : count ≤ 64) :
    low ||| high <<< 32 = low + high <<< 32 ∧ high * 2 ^ 32 < wordSpace ∧
      low + high <<< 32 < 2 ^ count := by
  have half : 2 ^ min count 32 ≤ 2 ^ 32 := Nat.pow_le_pow_right (by decide) (Nat.min_le_right _ _)
  have whole : 2 ^ min count 32 * 2 ^ (count - min count 32) = 2 ^ count := by
    rw [← Nat.pow_add, Nat.add_sub_cancel' (Nat.min_le_left _ _)]
  have space : wordSpace = 2 ^ 32 * 2 ^ 32 := rfl
  have other : 2 ^ (count - min count 32) ≤ 2 ^ 32 := Nat.pow_le_pow_right (by decide) (by omega)
  refine ⟨?_, by omega, ?_⟩
  · rw [Nat.or_comm, Nat.add_comm]
    exact (Nat.shiftLeft_add_eq_or_of_lt (by omega) high).symm
  · rw [Nat.shiftLeft_eq, ← whole]
    obtain narrow | wide := Nat.le_total count 32
    · have none : count - min count 32 = 0 := by omega
      rw [none] at hh ⊢
      omega
    · rw [Nat.min_eq_right wide] at hl ⊢
      have := Nat.mul_le_mul_left (2 ^ 32) (Nat.succ_le_of_lt hh)
      rw [Nat.min_eq_right wide] at this
      omega

theorem word {count : Nat} (few : count ≤ 64) :
    Refines (Resuming.word count) (Read.word count) (· < 2 ^ count) := by
  have rest : Checked.sub count (min count 32) = some (count - min count 32) :=
    Checked.sub_of_le (Nat.min_le_left _ _)
  apply guard_bind (if_pos few)
  apply (bits (Nat.min_le_right count 32)).bind
  intro low hl
  apply guard_bind rest
  apply (bits (by omega)).bind
  intro high hh
  obtain ⟨joined, kept, small⟩ := join_halves hl hh few
  apply guard_bind (Checked.shiftLeft_of_lt (by decide) kept)
  rw [joined]
  exact pure small

theorem bit : Refines Resuming.bit Read.bit fun _ => True :=
  (bits (by decide)).bind fun _ _ => pure trivial

theorem zeros {limit : Nat} (h : limit ≤ 255) :
    Refines (Resuming.zeros limit) (Read.zeros limit) (· < limit) := by
  induction limit with
  | zero => exact position.bind fun _ _ => throw _
  | succ limit ih =>
      apply bit.bind
      rintro (_ | _) -
      · apply (ih (by omega)).bind
        intro n hn
        exact guarded (Checked.upTo_of_le (by omega)) (Nat.succ_lt_succ hn)
      · exact pure (Nat.succ_pos limit)

/-- The leading bit does not overlap those below it, and both together make up a positive word. -/
theorem join_leading {width low : Nat} (hw : width < 64) (hl : low < 2 ^ width) :
    Checked.shiftLeft 1 width = some (1 <<< width) ∧ 1 <<< width ||| low = 1 <<< width + low ∧
      0 < 1 <<< width + low ∧ 1 <<< width + low < wordSpace := by
  have space : wordSpace = 2 ^ 63 * 2 := rfl
  have scale : 2 ^ width ≤ 2 ^ 63 := Nat.pow_le_pow_right (by decide) (Nat.le_of_lt_succ hw)
  refine ⟨Checked.shiftLeft_of_lt hw (by omega), (Nat.shiftLeft_add_eq_or_of_lt hl 1).symm, ?_⟩
  rw [Nat.one_shiftLeft]
  omega

theorem gamma : Refines Resuming.gamma Read.gamma fun value => 0 < value ∧ value < wordSpace := by
  apply (zeros (by decide)).bind
  intro width hw
  apply (word (Nat.le_of_lt hw)).bind
  intro low hl
  obtain ⟨leading, joined, bounds⟩ := join_leading hw hl
  apply guard_bind leading
  rw [joined]
  exact pure bounds

theorem gammaFromZero :
    Refines Resuming.gammaFromZero Read.gammaFromZero (· < wordSpace - 1) := by
  apply gamma.bind
  rintro value ⟨pos, fits⟩
  exact guarded (Checked.sub_of_le pos) (by omega)

theorem signed : Refines Resuming.signed Read.signed (Bits.isSignedWord · = true) := by
  apply bit.bind
  intro negative _
  apply gammaFromZero.bind
  intro magnitude _
  generalize (if negative then -(magnitude : Int) else magnitude) = value
  by_cases fits : Bits.isSignedWord value = true
  · simp only [fits, if_true]
    exact pure fits
  · simp only [fits]
    exact position.bind fun _ _ => throw _

theorem field {shape : Shape} (readable : shape.Readable) :
    Refines (Resuming.field shape) (Field.read shape) fun _ => True := by
  cases shape with
  | bits width => exact (bits readable).bind fun _ _ => pure trivial
  | word width => exact (word readable).bind fun _ _ => pure trivial
  | bit => exact bit.bind fun _ _ => pure trivial
  | gamma => exact gamma.bind fun _ _ => pure trivial
  | gammaFromZero => exact gammaFromZero.bind fun _ _ => pure trivial
  | signed => exact signed.bind fun _ _ => pure trivial

variable {bytes : List UInt8} {b : Buffer}

/-- The answer and the place after it, whether the action fails or not. -/
theorem outcome_eq (h : Refines x read P) (w : b.Within bytes) :
    ∃ b', x b = some ((read.outcome b.view).1, b') ∧ (read.outcome b.view).2 = b'.view ∧
      b'.Within bytes := by
  obtain ⟨a, b', taken, same, w', _⟩ | ⟨e, b', failed, same, w'⟩ := h bytes b w
  · exact ⟨b', by rw [taken, Read.outcome, same], by rw [Read.outcome, same], w'⟩
  · exact ⟨b', by rw [failed, Read.outcome, same], by rw [Read.outcome, same], w'⟩

end Refines

variable {bytes : List UInt8} {b : Buffer} {shapes : List Shape}

theorem remaining_eq (w : b.Within bytes) :
    remaining b = some (.ok b.view.remaining, b) := by
  rw [remaining, w.toBalanced.remaining_eq]
  rfl

/-- From every place the attempts are answered as those on bits are, and none is refused. -/
theorem attempts_eq (readable : ∀ s ∈ shapes, s.Readable) (w : b.Within bytes) :
    ∃ found b', attempts shapes b = some (.ok found, b') ∧
      Field.attempts shapes b.view = .ok found b'.view ∧ b'.Within bytes ∧
      ∀ a ∈ found, a.position + a.remaining = 8 * bytes.length := by
  induction shapes generalizing b with
  | nil => exact ⟨[], b, rfl, rfl, w, by simp⟩
  | cons shape shapes ih =>
      obtain ⟨b₁, taken, seen, w₁⟩ := (Refines.field (readable shape (by simp))).outcome_eq w
      obtain ⟨later, b₂, rest, same, w₂, totals⟩ := ih (fun s h => readable s (by simp [h])) w₁
      have here : position b₁ = some (.ok b₁.taken, b₁) := rfl
      have there : (get : Read BitReader) b₁.view = .ok b₁.view b₁.view := rfl
      let first : Attempt :=
        ⟨((Field.read shape).outcome b.view).1, b₁.taken, b₁.view.remaining⟩
      refine ⟨first :: later, b₂, ?_, ?_, w₂, ?_⟩
      · rw [attempts, bind_of_ok (observing_of_eq taken), bind_of_ok here,
          bind_of_ok (remaining_eq w₁), bind_of_ok rest]
        rfl
      · rw [Field.attempts, Failing.bind_of_ok (Read.observing_eq _ _), seen,
          Failing.bind_of_ok there, Failing.bind_of_ok same]
        rfl
      · intro a member
        obtain rfl | member := List.mem_cons.mp member
        · exact w₁.taken_add_remaining
        · exact totals a member

/-- What a buffer answers at a place in the bits of some bytes. -/
structure AnswersAt (bytes : List UInt8) (b : Buffer) : Prop where
  /-- The bits that are left are those from the position on. -/
  view_eq : b.view = ⟨b.taken, (Bits.unpack bytes).drop b.taken⟩
  remaining_eq : remaining b = some (.ok b.view.remaining, b)
  taken_add_remaining : b.taken + b.view.remaining = 8 * bytes.length
  held_lt : b.held < 40
  /-- Above the bits that are held the word is zero. -/
  word_lt : b.word < 2 ^ b.held
  /-- The next bits are there, the first one lowest. -/
  bits_of_le : ∀ count ≤ 32, count ≤ b.view.remaining →
    ∃ b', bits count b =
        some (.ok (Bits.toNat (((Bits.unpack bytes).drop b.taken).take count)), b') ∧
      b'.view = ⟨b.taken + count, (Bits.unpack bytes).drop (b.taken + count)⟩
  /-- The bits end, and nothing that is read later can tell that they were asked for. -/
  bits_of_lt : ∀ count ≤ 32, b.view.remaining < count →
    ∃ b', bits count b = some (.error (.unexpectedEnd b.taken), b') ∧ b'.taken = b.taken ∧
      remaining b' = some (.ok b.view.remaining, b') ∧
      ∀ later : List Shape, (∀ s ∈ later, s.Readable) →
        ∃ found last last', attempts later b = some (.ok found, last) ∧
          attempts later b' = some (.ok found, last') ∧ last'.view = last.view
  /-- A word without an upper half has lost its lower half. -/
  word_of_lt : ∀ count ≤ 64, 32 ≤ b.view.remaining → b.view.remaining < count →
    ∃ b', word count b = some (.error (.unexpectedEnd (b.taken + 32)), b') ∧
      b'.taken = b.taken + 32
  /-- All fields are read by single bits. -/
  field_eq : ∀ shape : Shape, shape.Readable →
    ∃ answer b', field shape b = some (answer, b') ∧
      (Bitwise.field shape).outcome b.view = (answer, b'.view)

theorem answersAt (w : b.Within bytes) : AnswersAt bytes b where
  view_eq := by
    rw [← w.rest_view]
    rfl
  remaining_eq := remaining_eq w
  taken_add_remaining := w.taken_add_remaining
  held_lt := w.held_lt
  word_lt := w.word_lt
  bits_of_le := by
    intro count few enough
    obtain ⟨b', taken, seen, _⟩ := (Refines.bits few).outcome_eq w
    rw [Read.outcome, Read.bits_of_le enough, w.rest_view] at taken seen
    rw [List.drop_drop] at seen
    exact ⟨b', taken, seen.symm⟩
  bits_of_lt := by
    intro count few short
    obtain ⟨b', failed, seen, w'⟩ := (Refines.bits few).outcome_eq w
    rw [Read.outcome, Read.bits_of_lt short] at failed seen
    have same : b'.view = b.view := seen.symm
    refine ⟨b', failed, congrArg BitReader.position same, ?_, ?_⟩
    · rw [remaining_eq w', same]
    · intro later readable
      obtain ⟨found, last, tried, read, _⟩ := attempts_eq readable w
      obtain ⟨found', last', tried', read', _⟩ := attempts_eq readable w'
      rw [same, read] at read'
      obtain ⟨rfl, place⟩ := EStateM.Result.ok.inj read'
      exact ⟨found, last, last', tried, tried', place.symm⟩
  word_of_lt := by
    intro count few half short
    obtain ⟨b', failed, seen, _⟩ := (Refines.word few).outcome_eq w
    rw [Read.outcome, Read.word_of_lt half short] at failed seen
    exact ⟨b', failed, congrArg BitReader.position seen.symm⟩
  field_eq := by
    intro shape readable
    obtain ⟨b', taken, seen, _⟩ := (Refines.field readable).outcome_eq w
    rw [Bitwise.field_eq]
    exact ⟨_, b', taken, Prod.ext rfl seen⟩

/-- However many fields one tries to read from a buffer over some bytes, and whether or not one
fails: no step is refused, each attempt is answered as the one on bits is, and so are the position
and the number of bits that are left after it, which always add up to the number of all bits. Then
the buffer is at a place in these, and what it answers there is determined by the place. -/
theorem reads_on_exact (bytes : List UInt8) (readable : ∀ s ∈ shapes, s.Readable) :
    ∃ found b, attempts shapes (.ofBytes bytes) = some (.ok found, b) ∧
      Field.attempts shapes (.ofBytes bytes) = .ok found b.view ∧
      (∀ a ∈ found, a.position + a.remaining = 8 * bytes.length) ∧
      AnswersAt bytes b := by
  obtain ⟨found, b, tried, same, w, totals⟩ := attempts_eq readable (Buffer.within_ofBytes bytes)
  rw [Buffer.view_ofBytes] at same
  exact ⟨found, b, tried, same, totals, answersAt w⟩

/-- Five bytes. A word without an upper half loses its lower half, and a code that ends too early
loses its zeros; what is too long for the bits that are left loses nothing. -/
theorem reads_on_exact_interrupted :
    (∀ s ∈ [Shape.word 64, .bits 9, .gamma, .bits 2], s.Readable) ∧
      ∃ b, attempts [.word 64, .bits 9, .gamma, .bits 2] (.ofBytes [1, 2, 3, 4, 160]) =
          some (.ok [⟨.error (.unexpectedEnd 32), 32, 8⟩, ⟨.error (.unexpectedEnd 32), 32, 8⟩,
            ⟨.error (.unexpectedEnd 38), 38, 2⟩, ⟨.ok (.bits 2 2), 40, 0⟩], b) ∧
        AnswersAt [1, 2, 3, 4, 160] b := by
  have readable : ∀ s ∈ [Shape.word 64, .bits 9, .gamma, .bits 2], s.Readable := by decide
  have onBits : Field.attempts [.word 64, .bits 9, .gamma, .bits 2] (.ofBytes [1, 2, 3, 4, 160]) =
      .ok [⟨.error (.unexpectedEnd 32), 32, 8⟩, ⟨.error (.unexpectedEnd 32), 32, 8⟩,
        ⟨.error (.unexpectedEnd 38), 38, 2⟩, ⟨.ok (.bits 2 2), 40, 0⟩] ⟨40, []⟩ := by rfl
  obtain ⟨found, b, tried, same, _, answers⟩ := reads_on_exact [1, 2, 3, 4, 160] readable
  obtain ⟨rfl, _⟩ := EStateM.Result.ok.inj (onBits.symm.trans same)
  exact ⟨readable, b, tried, answers⟩

end Resuming

end RunGrammar
