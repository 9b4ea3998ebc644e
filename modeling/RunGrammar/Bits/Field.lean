import RunGrammar.Bits.Reader

/-!
# Fields

A field is a value with the way in which it is stored. What is written says
nothing about the way, so to read a field its shape has to be known.
-/

namespace RunGrammar

/-- A way of storing a value. -/
inductive Shape where
  /-- Up to 32 bits. -/
  | bits (width : Nat)
  /-- Up to 64 bits. -/
  | word (width : Nat)
  | bit
  | gamma
  | gammaFromZero
  | signed
deriving DecidableEq, Repr

/-- A value with the way in which it is stored. -/
inductive Field where
  | bits (width value : Nat)
  | word (width value : Nat)
  | bit (value : Bool)
  | gamma (value : Nat)
  | gammaFromZero (value : Nat)
  | signed (value : Int)
deriving DecidableEq, Repr

namespace Field

def shape : Field → Shape
  | bits width _ => .bits width
  | word width _ => .word width
  | bit _ => .bit
  | gamma _ => .gamma
  | gammaFromZero _ => .gammaFromZero
  | signed _ => .signed

/-- The bits of a field. Of a value that is too wide only the low bits are stored. -/
def encode : Field → List Bool
  | bits width value => Bits.ofNat width value
  | word width value => Bits.ofNat width value
  | bit value => [value]
  | gamma value => Bits.gamma value
  | gammaFromZero value => Bits.gammaFromZero value
  | signed value => Bits.signed value

/-- Reads a field of a known shape. -/
def read : Shape → Read Field
  | .bits width => return .bits width (← Read.bits width)
  | .word width => return .word width (← Read.word width)
  | .bit => return .bit (← Read.bit)
  | .gamma => return .gamma (← Read.gamma)
  | .gammaFromZero => return .gammaFromZero (← Read.gammaFromZero)
  | .signed => return .signed (← Read.signed)

end Field

end RunGrammar
