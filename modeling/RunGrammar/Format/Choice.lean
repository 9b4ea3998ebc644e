import RunGrammar.Format.Plain
import RunGrammar.Format.Fixed
import RunGrammar.Format.Sorted

/-!
# Choosing a format

Each format is known by a name and marks its files with an extension. Reading
what was written gives an equal grammar in the first two formats; in the third
the rules may come back in another order.
-/

namespace RunGrammar

inductive Format where
  | plain
  | fixed
  | sorted
deriving DecidableEq, Repr, Inhabited

namespace Format

def all : List Format := [plain, fixed, sorted]

def name : Format → String
  | plain => "plain"
  | fixed => "fixed"
  | sorted => "sorted"

/-- The extension of files in this format. -/
def fileExtension : Format → String
  | plain => "rlslp"
  | fixed => "frlslp"
  | sorted => "srlslp"

/-- The format of a name; names are taken letter by letter. -/
def ofName (name : String) : Except Failure Format :=
  match all.find? (·.name == name) with
  | some f => .ok f
  | none => .error (.unknownFormat name)

def encode (g : Grammar) : Format → List UInt8
  | plain => PlainFormat.encode g
  | fixed => FixedFormat.encode g
  | sorted => SortedFormat.encode g

/-- The bytes of a grammar with this symbol in the field of the root. The sorted format has zero
there for an empty grammar, whatever root it had before. -/
def encodeWithRoot (field : Symbol) (g : Grammar) : Format → List UInt8
  | plain => PlainFormat.encodeWithRoot field g
  | fixed => FixedFormat.encodeWithRoot field g
  | sorted => SortedFormat.encode g

def decode (bytes : List UInt8) : Format → Except Failure Grammar
  | plain => PlainFormat.decode bytes
  | fixed => FixedFormat.decode bytes
  | sorted => SortedFormat.decode bytes

end Format

end RunGrammar
