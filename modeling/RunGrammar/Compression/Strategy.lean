import RunGrammar.Compression.FirstSeen
import RunGrammar.Compression.Dense
import RunGrammar.Compression.Chunked

/-!
# Choosing a way to compress

Each way of compressing is known by a name. A `Compressor` is one that is ready
for work: it holds the tables that its method keeps from one text to the next,
or the number of chunks. What it keeps never shows in a later answer.

All strategies derive the same text. The second and the third also agree on the
grammar; the first numbers its rules differently.
-/

namespace RunGrammar

inductive Strategy where
  | firstSeen
  | dense
  | chunked
deriving DecidableEq, Repr

namespace Strategy

instance : Inhabited Strategy := ⟨.dense⟩

def all : List Strategy := [firstSeen, dense, chunked]

def name : Strategy → String
  | firstSeen => FirstSeen.method.name
  | dense => DenseAlphabet.method.name
  | chunked => (Chunked.method 1).name

/-- The strategy of a name; names are taken letter by letter. -/
def ofName (name : String) : Except Failure Strategy :=
  match all.find? (·.name == name) with
  | some s => .ok s
  | none => .error (.unknownStrategy name)

end Strategy

/-- The result of compressing one text. -/
structure Outcome where
  result : Except Failure Grammar
  /-- What is left of the text. Where a phase has failed, this is the text that it began with; a
  phase that overwrites the text on its way leaves another one, see `InPlace`. -/
  text : Text
  /-- What was reported, oldest first. -/
  events : List Event

/-- A way of compressing with what it keeps between two texts. -/
inductive Compressor where
  | firstSeen (names : FirstSeen.Names)
  | dense (mapping : Array Symbol)
  | chunked (parts : Nat)

/-- A fresh compressor. Only the chunked strategy makes use of the number of parts, at least one. It
works on as many threads, which are there by then: whoever runs it starts them, and may fail. -/
def Strategy.start (parts : Nat) : Strategy → Compressor
  | firstSeen => .firstSeen ∅
  | dense => .dense #[]
  | chunked => .chunked (max 1 parts)

namespace Compressor

def strategy : Compressor → Strategy
  | firstSeen _ => .firstSeen
  | dense _ => .dense
  | chunked _ => .chunked

/-- Reads an outcome off a finished run. -/
def conclude {σ : Type} (next : σ → Compressor) :
    EStateM.Result Failure (Workspace σ) Grammar → Outcome × Compressor
  | .ok g w => (⟨.ok g, w.text, w.events⟩, next w.tables)
  | .error e w => (⟨.error e, w.text, w.events⟩, next w.tables)

/-- Compresses a text over `alphabetSize` terminals. -/
def compress (alphabetSize : Nat) (text : Text) : Compressor → Outcome × Compressor
  | firstSeen names => conclude .firstSeen (FirstSeen.method.compress names alphabetSize text)
  | dense mapping => conclude .dense (DenseAlphabet.method.compress mapping alphabetSize text)
  | chunked parts =>
    conclude (fun _ => .chunked parts) ((Chunked.method parts).compress () alphabetSize text)

end Compressor

/-- Compresses a text with a fresh compressor. -/
def Strategy.compress (s : Strategy) (parts alphabetSize : Nat) (text : Text) : Outcome :=
  ((s.start parts).compress alphabetSize text).1

/-- Compresses bytes in the default way. -/
def compressBytes (bytes : List UInt8) : Except Failure Grammar :=
  ((default : Strategy).compress 1 byteAlphabet (Text.ofBytes bytes)).result

end RunGrammar
