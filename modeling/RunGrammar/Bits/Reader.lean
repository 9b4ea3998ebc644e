import RunGrammar.Bits.Basic
import RunGrammar.Failure

/-!
# Reading bits

A reader holds the bits that are left and the number of those that were taken.
Taking bits that are not there is a failure at the current position and takes
nothing. The codes are read with these steps only, so a code that fails midway
has taken what the steps before the failure took.
-/

namespace RunGrammar

structure BitReader where
  /-- How many bits were taken. -/
  position : Nat := 0
  /-- The bits that are left. -/
  rest : List Bool
deriving DecidableEq, Repr

namespace BitReader

/-- A reader before the first bit of some bytes. -/
def ofBytes (bytes : List UInt8) : BitReader := { rest := Bits.unpack bytes }

/-- How many bits are left, those that fill up the last byte included. -/
def remaining (r : BitReader) : Nat := r.rest.length

end BitReader

/-- An action that takes bits from a reader. -/
abbrev Read := EStateM Failure BitReader

namespace Read

/-- Runs an action on some bytes; what it leaves over does not matter. -/
def run {α : Type} (read : Read α) (bytes : List UInt8) : Except Failure α :=
  match read (.ofBytes bytes) with
  | .ok a _ => .ok a
  | .error e _ => .error e

def position : Read Nat := return (← get).position

/-- Takes a number of `count` bits. -/
def bits (count : Nat) : Read Nat := fun r =>
  let taken := r.rest.take count
  if taken.length = count then .ok (Bits.toNat taken) ⟨r.position + count, r.rest.drop count⟩
  else .error (.unexpectedEnd r.position) r

/-- Takes a number of up to 64 bits in two halves. -/
def word (count : Nat) : Read Nat := do
  let low ← bits (min count 32)
  let high ← bits (count - min count 32)
  return low + high <<< 32

def bit : Read Bool := return (← bits 1) ≠ 0

/-- Takes zeros up to and including the next one, and counts them. There may be fewer than
`limit`. -/
def zeros : (limit : Nat) → Read Nat
  | 0 => do throw (.malformed (.longGamma (← position)))
  | limit + 1 => do
    if ← bit then return 0
    else return (← zeros limit) + 1

/-- Takes a gamma code of at most 64 bits after the zeros. -/
def gamma : Read Nat := do
  let width ← zeros 64
  let low ← word width
  return 1 <<< width + low

def gammaFromZero : Read Nat := return (← gamma) - 1

/-- Takes a signed number, which must fit 64 bits in two's complement. -/
def signed : Read Int := do
  let negative ← bit
  let magnitude ← gammaFromZero
  let value : Int := if negative then -magnitude else magnitude
  if Bits.isSignedWord value then return value
  else throw (.malformed (.signedRange (← position)))

/-- Repeats an action and collects the results behind those that are there already. -/
def collect {α : Type} (read : Read α) : (count : Nat) → (done : Array α) → Read (Array α)
  | 0, done => return done
  | count + 1, done => do
    let a ← read
    collect read count (done.push a)

end Read

end RunGrammar
