/-!
# Sorting by a word

A radix sort distributes the items once for each byte of their keys, the least
significant byte first, and every distribution keeps the order among items with
the same byte. After the byte at some place the items are sorted by all bytes up
to that place, so after the last one they are sorted by the key, and items with
equal keys are in their old order. Places at which all keys are zero need no
distribution.
-/

namespace RunGrammar.RadixSort

variable {α : Type}

/-- The byte of a key at a place; place zero is the least significant. -/
def byteAt (place : Nat) (key : UInt32) : Nat := key.toNat >>> (8 * place) % 256

/-- The items of each bucket, in the order in which they came. -/
def distribute (bucketOf : α → Nat) (items : List α) : Array (Array α) :=
  items.foldl (fun buckets x => buckets.modify (bucketOf x) (·.push x)) (Array.replicate 256 #[])

/-- Distributes the items into 256 buckets and collects them again, lowest bucket first. -/
def pass (bucketOf : α → Nat) (items : List α) : List α :=
  (distribute bucketOf items).toList.flatMap Array.toList

/-- The places at which some key up to `largest` has a byte, least significant first. -/
def places (largest : Nat) : List Nat :=
  (List.range 4).takeWhile fun place => 0 < largest >>> (8 * place)

/-- The items in ascending order of their keys; equal keys keep their order. -/
def sortByKey (key : α → UInt32) (items : List α) : List α :=
  let largest := items.foldl (fun bound x => max bound (key x).toNat) 0
  (places largest).foldl (fun sorted place => pass (fun x => byteAt place (key x)) sorted) items

end RunGrammar.RadixSort
