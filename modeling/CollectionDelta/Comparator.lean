import CollectionDelta.Stream

/-!
Comparing two streams chunk by chunk.

* `Comparator`: the size of a chunk, within fixed bounds.
* `Comparator.equal`: whether two streams deliver the same bytes; stops at the first chunk that
  differs, or at the first failure.
-/

namespace CollectionDelta

structure Comparator where
  chunk : Nat
  chunk_pos : 0 < chunk := by decide

namespace Comparator

def maxChunk : Nat := 8 * 1024 * 1024
def defaultChunk : Nat := 64 * 1024

/-- A chunk size out of bounds is taken to the nearest bound. -/
def ofChunk (n : Nat) : Comparator where
  chunk := max 1 (min n maxChunk)
  chunk_pos := by omega

def standard : Comparator := ofChunk defaultChunk

/-- The answer, and what is left of the two streams. -/
structure Verdict where
  equal : Except Fault Bool
  first : Stream
  second : Stream

/-- The first stream's chunk is filled before the second's; an empty chunk is the end of the data. -/
def equal (c : Comparator) (a b : Stream) : Verdict :=
  match _ha : a.gather c.chunk with
  | (.error f, a') => ⟨.error f, a', b⟩
  | (.ok [], a') =>
    match b.gather c.chunk with
    | (.error f, b') => ⟨.error f, a', b'⟩
    | (.ok y, b') => ⟨.ok y.isEmpty, a', b'⟩
  | (.ok (x :: xs), a') =>
    match b.gather c.chunk with
    | (.error f, b') => ⟨.error f, a', b'⟩
    | (.ok y, b') => if x :: xs = y then equal c a' b' else ⟨.ok false, a', b'⟩
termination_by a.weight
decreasing_by
  have := Stream.gather_weight_add_le _ha
  simp at this
  omega

end Comparator
end CollectionDelta
