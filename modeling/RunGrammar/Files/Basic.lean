import RunGrammar.Format.Choice

/-!
# Files

A program reaches its files through two actions, one that reads a whole file and
one that writes it. They are a parameter of everything that uses files, together
with the monad that they act in; what a file name means is their business. Both
actions answer with a fault instead of failing.
-/

namespace RunGrammar

/-- Access to files by name. -/
structure Files (m : Type → Type) where
  read : (name : String) → m (Except FileFault (List UInt8))
  write : (name : String) → (bytes : List UInt8) → m (Except FileFault Unit)

/-- The first `limit` bytes, or all of them if the limit is zero. -/
def firstBytes (limit : Nat) (bytes : List UInt8) : List UInt8 :=
  if limit = 0 then bytes else bytes.take limit

/-- The text made of the first `limit` bytes. Zero bytes can be dropped, which happens after the
cut. -/
def Text.ofContents (limit : Nat) (dropZeroes : Bool) (bytes : List UInt8) : Text :=
  let kept := firstBytes limit bytes
  Text.ofBytes (if dropZeroes then kept.filter (· != 0) else kept)

namespace Files

variable {m : Type → Type} [Monad m]

/-- The contents of a file. -/
def contents (files : Files m) (name : String) : ExceptT Failure m (List UInt8) := do
  match ← files.read name with
  | .ok bytes => return bytes
  | .error fault => throw (.file fault)

/-- The text in a file. -/
def text (files : Files m) (name : String) (limit : Nat) (dropZeroes : Bool) :
    ExceptT Failure m Text := do
  return Text.ofContents limit dropZeroes (← files.contents name)

/-- Stores a grammar and returns the number of bytes written. -/
def store (files : Files m) (format : Format) (name : String) (g : Grammar) :
    ExceptT Failure m Nat := do
  let bytes := format.encode g
  match ← files.write name bytes with
  | .ok () => return bytes.length
  | .error fault => throw (.file fault)

/-- The grammar stored in a file. -/
def load (files : Files m) (format : Format) (name : String) : ExceptT Failure m Grammar := do
  MonadExcept.ofExcept (format.decode (← files.contents name))

end Files

end RunGrammar
