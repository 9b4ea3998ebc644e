import RunGrammar.Symbol

/-!
# Bits

Stored grammars are sequences of bits. A number takes its bits in ascending
order of significance, and eight bits at a time make up a byte in the same way;
the last byte is filled up with zeros.

Besides fields of a fixed width there are gamma codes, which tell their own
length: as many zeros as there are bits after the leading one, the one, and then
the bits after it. A gamma code stands for a positive number; numbers that may be
zero are stored with one added, and a signed number is stored as its sign and
its magnitude.
-/

namespace RunGrammar.Bits

/-- The low `width` bits of a number, least significant first. -/
def ofNat : (width value : Nat) → List Bool
  | 0, _ => []
  | width + 1, value => decide (value % 2 = 1) :: ofNat width (value / 2)

/-- The number with these bits, least significant first. -/
def toNat : List Bool → Nat
  | [] => 0
  | bit :: rest => bit.toNat + 2 * toNat rest

/-- The gamma code of a positive number. -/
def gamma (value : Nat) : List Bool :=
  List.replicate value.log2 false ++ true :: ofNat value.log2 value

/-- The gamma code of the next larger number. Only words have a code, so the largest word shares
that of its predecessor. -/
def gammaFromZero (value : Nat) : List Bool := gamma (min (value + 1) (wordSpace - 1))

/-- The sign of a number and the code of its magnitude. -/
def signed (value : Int) : List Bool := decide (value < 0) :: gammaFromZero value.natAbs

/-- The first positive number that is not a signed word of 64 bits. -/
def signedBound : Int := 0x8000000000000000

/-- Whether a number has 64 bits in two's complement. -/
def isSignedWord (value : Int) : Bool := -signedBound ≤ value && value < signedBound

/-- Packs bits into bytes behind those that are there already. -/
def packOnto (bytes : Array UInt8) (bits : List Bool) : Array UInt8 :=
  match bits with
  | [] => bytes
  | bit :: rest =>
    packOnto (bytes.push (.ofNat (toNat ((bit :: rest).take 8)))) ((bit :: rest).drop 8)
termination_by bits.length

/-- The bytes that hold these bits; what is left of the last one is zero. -/
def pack (bits : List Bool) : List UInt8 := (packOnto #[] bits).toList

/-- The bits of some bytes. -/
def unpack (bytes : List UInt8) : List Bool := bytes.flatMap fun b => ofNat 8 b.toNat

@[simp] theorem length_ofNat (width value : Nat) : (ofNat width value).length = width := by
  induction width generalizing value with
  | zero => rfl
  | succ width ih => simp [ofNat, ih]

end RunGrammar.Bits
