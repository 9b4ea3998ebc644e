/-!
# Symbols and texts

A text is a finite sequence of symbols, and a symbol is a 32-bit id. What an id
stands for is decided by a grammar: over `t` terminals the ids below `t` stand
for themselves, and id `t + k` stands for rule `k`.

Ids are words because the id space is a real limit of the data: a grammar has
room for `idSpace` symbols and no more. Counts of symbols, by contrast, are
natural numbers. The length of a derived text can exceed any word, so cached
lengths stop at `lengthCap` instead of wrapping around.
-/

namespace RunGrammar

/-- A symbol id. -/
abbrev Symbol := UInt32

/-- A finite sequence of symbols. -/
abbrev Text := List Symbol

/-- The number of different symbol ids, as many as there are words of 32 bits. -/
def idSpace : Nat := 0x100000000

/-- The number of different words of 64 bits. -/
def wordSpace : Nat := 0x10000000000000000

/-- The number of terminals of a text made of bytes. -/
def byteAlphabet : Nat := 256

/-- The largest length that is represented; longer lengths are recorded as this one. -/
def lengthCap : Nat := wordSpace - 1

/-- Each byte as the symbol of the same value. -/
def Text.ofBytes (bytes : List UInt8) : Text :=
  bytes.map UInt8.toUInt32

theorem Symbol.toNat_lt_idSpace (c : Symbol) : c.toNat < idSpace :=
  c.toNat_lt

/-- The number of bits of `value` in binary, where zero takes one bit. -/
def bitWidth (value : Nat) : Nat :=
  value.log2 + 1

end RunGrammar
