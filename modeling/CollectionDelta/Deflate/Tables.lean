/-!
The tables of the Deflate format (RFC 1951).

* `lengthBase`, `lengthExtra`, `distanceBase`, `distanceExtra`: what length and distance symbols
  stand for, and how many more bits follow them.
* `codeLengthOrder`: the order in which the lengths of the code-length code are written.
* `fixedLengths`, `fixedDistances`: the code lengths of blocks that bring none.
* `Huffman`: a canonical code by the number of its words of each length, with its symbols in order.
-/

namespace CollectionDelta.Deflate

def lengthBase : Array Nat := #[
  3, 4, 5, 6, 7, 8, 9, 10, 11, 13, 15, 17, 19, 23, 27, 31, 35, 43, 51, 59, 67, 83, 99, 115, 131,
  163, 195, 227, 258]

def lengthExtra : Array Nat := #[
  0, 0, 0, 0, 0, 0, 0, 0, 1, 1, 1, 1, 2, 2, 2, 2, 3, 3, 3, 3, 4, 4, 4, 4, 5, 5, 5, 5, 0]

def distanceBase : Array Nat := #[
  1, 2, 3, 4, 5, 7, 9, 13, 17, 25, 33, 49, 65, 97, 129, 193, 257, 385, 513, 769, 1025, 1537, 2049,
  3073, 4097, 6145, 8193, 12289, 16385, 24577]

def distanceExtra : Array Nat := #[
  0, 0, 0, 0, 1, 1, 2, 2, 3, 3, 4, 4, 5, 5, 6, 6, 7, 7, 8, 8, 9, 9, 10, 10, 11, 11, 12, 12, 13, 13]

def codeLengthOrder : List Nat := [16, 17, 18, 0, 8, 7, 9, 6, 10, 5, 11, 4, 12, 3, 13, 2, 14, 1, 15]

def fixedLengths : Array Nat :=
  ⟨List.replicate 144 8 ++ List.replicate 112 9 ++ List.replicate 24 7 ++ List.replicate 8 8⟩

def fixedDistances : Array Nat := ⟨List.replicate 30 5⟩

def endOfBlock : Nat := 256

/-! ## Canonical codes -/

def maxCodeLength : Nat := 15

structure Huffman where
  /-- How many words have each length, from zero on. -/
  counts : Array Nat
  /-- The symbols that have words, by length and then by number. -/
  symbols : Array Nat

namespace Huffman

def ofLengths (lengths : Array Nat) : Huffman where
  counts := lengths.foldl (fun c l => c.modify l (· + 1)) (Array.replicate (maxCodeLength + 1) 0)
  symbols := (List.range maxCodeLength).foldl (fun s i =>
    lengths.size.fold (fun k _ s => if lengths[k]! = i + 1 then s.push k else s) s) #[]

/-- The longest word. -/
def longest (h : Huffman) : Nat :=
  (List.range (maxCodeLength + 1)).foldl (fun m l => if l ≠ 0 ∧ h.counts[l]! ≠ 0 then l else m) 0

/-- The words of a length that are still free after those in use; `none` if there are too many
words. -/
def unused? (h : Huffman) : Option Nat :=
  (List.range maxCodeLength).foldl (fun left i =>
    left.bind fun n => if h.counts[i + 1]! ≤ 2 * n then some (2 * n - h.counts[i + 1]!) else none)
    (some 1)

/-- No word is ambiguous, and none is missing but for a code of one word, if that is allowed. -/
def isSound (h : Huffman) (single : Bool) : Bool :=
  match h.unused? with
  | none => false
  | some 0 => true
  | some _ => h.longest = 0 || (single && h.longest = 1)

end Huffman
end CollectionDelta.Deflate
