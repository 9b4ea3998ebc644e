/-!
# Distributing by counting

A distribution into buckets needs no bucket of its own. Once the items of every
bucket are counted, it is known where the bucket begins among all items, and each
item can be written to the first place of its bucket that is still free. The
places are in a buffer, and after a distribution items and buffer change roles.

There are 256 buckets, one for each byte. The counts are in a table with one more
entry, so that the entry of a bucket can be the number of items before it. The
table and the buffer have fixed sizes, and where an entry is missing, the answer
is `none`.
-/

namespace RunGrammar.CountingSort

variable {α : Type}

/-- Replaces an entry of an array, if there is one. -/
def put (entries : Array α) (i : Nat) (x : α) : Option (Array α) :=
  if h : i < entries.size then some (entries.set i x h) else none

/-- Counts one more item, one entry behind that of its bucket. -/
def tally (bucketOf : α → Nat) (counts : Array Nat) (x : α) : Option (Array Nat) := do
  let before ← counts[bucketOf x + 1]?
  put counts (bucketOf x + 1) (before + 1)

/-- How many items each bucket gets, one entry behind that of the bucket. -/
def count (bucketOf : α → Nat) (items : List α) : Option (Array Nat) :=
  items.foldlM (tally bucketOf) (Array.replicate 257 0)

/-- Adds to an entry the one before it. -/
def carry (counts : Array Nat) (i : Nat) : Option (Array Nat) := do
  let own ← counts[i]?
  let before ← counts[i - 1]?
  put counts i (own + before)

/-- Adds up the entries from left to right. -/
def accumulate (counts : Array Nat) : Option (Array Nat) :=
  (List.range' 1 256).foldlM carry counts

/-- The next free place of every bucket, and the buffer that has the places. -/
structure Places (α : Type) where
  next : Array Nat
  buffer : Array α

/-- Writes an item to the next free place of its bucket. -/
def write (bucketOf : α → Nat) (places : Places α) (x : α) : Option (Places α) := do
  let place ← places.next[bucketOf x]?
  let buffer ← put places.buffer place x
  let next ← put places.next (bucketOf x) (place + 1)
  return ⟨next, buffer⟩

/-- Distributes the items into the buckets. At first the buffer holds copies of the first item. -/
def pass (bucketOf : α → Nat) (items : List α) : Option (List α) := do
  let counts ← count bucketOf items
  let next ← accumulate counts
  let first ← items.head?
  let written ← items.foldlM (write bucketOf) ⟨next, Array.replicate items.length first⟩
  return written.buffer.toList

/-- The byte of a key from a bit on. -/
def digit (shift : Nat) (key : UInt32) : Nat := (key >>> UInt32.ofNat shift &&& 0xff).toNat

/-- Distributes the items by one byte of their keys after the other, from bit `shift` on. The rest
is left out where the largest key has no bits any more. -/
def passes (key : α → UInt32) (largest : UInt32) (shift : Nat) (items : List α) :
    Option (List α) :=
  if shift < 32 ∧ largest >>> UInt32.ofNat shift > 0 then do
    let sorted ← pass (fun x => digit shift (key x)) items
    passes key largest (shift + 8) sorted
  else some items
termination_by 32 - shift

/-- The items in ascending order of their keys; equal keys keep their order. -/
def sortByKey (key : α → UInt32) (items : List α) : Option (List α) :=
  match (items.map key).max? with
  | none => some items
  | some largest => passes key largest 0 items

end RunGrammar.CountingSort
