import CollectionDelta.Checksum.Adler32
import Mathlib.Algebra.Ring.Nat
import Mathlib.Data.List.Induction

/-!
The Adler-32 checksum.

* `Adler32.sumOf`, `Adler32.sumsOf`: the two sums of RFC 1950, before anything is taken modulo the
  prime; `adler32_eq` says that the checksum consists of them.
* `adler32_lt`: it fits in four bytes, whatever the bytes.
-/

namespace CollectionDelta

namespace Adler32

/-! ## The two sums -/

/-- One and all bytes. -/
def sumOf (b : Bytes) : Nat := 1 + (b.map UInt8.toNat).sum

/-- The sums after the first byte, after the first two, and so on, added up. -/
def sumsOf (b : Bytes) : Nat := ((List.range b.length).map fun k => sumOf (b.take (k + 1))).sum

theorem sumOf_concat (b : Bytes) (x : UInt8) : sumOf (b ++ [x]) = sumOf b + x.toNat := by
  simp [sumOf, Nat.add_assoc]

theorem sumsOf_concat (b : Bytes) (x : UInt8) :
    sumsOf (b ++ [x]) = sumsOf b + sumOf (b ++ [x]) := by
  have hbefore : ∀ k ∈ List.range b.length,
      sumOf ((b ++ [x]).take (k + 1)) = sumOf (b.take (k + 1)) := by
    intro k hk
    rw [List.take_append_of_le_length (List.mem_range.1 hk)]
  have hlast : (b ++ [x]).take (b.length + 1) = b ++ [x] := List.take_of_length_le (by simp)
  rw [sumsOf, List.length_append, List.length_singleton, List.range_succ, List.map_append,
    List.sum_append, List.map_congr_left hbefore, List.map_singleton, List.sum_singleton, hlast]
  rfl

/-- Taking both sums modulo the prime after each byte does not change what they are in the end. -/
theorem foldl_add (b : Bytes) :
    b.foldl State.add {} = ⟨sumOf b % modulus, sumsOf b % modulus⟩ := by
  induction b using List.reverseRecOn with
  | nil => rfl
  | append_singleton b x ih =>
    rw [List.foldl_append, ih, List.foldl_cons, List.foldl_nil, State.add, Nat.mod_add_mod,
      ← sumOf_concat, ← Nat.add_mod, ← sumsOf_concat]

end Adler32

/-- The second sum in the upper half and the first one in the lower. -/
theorem adler32_eq (b : Bytes) :
    adler32 b = 65536 * (Adler32.sumsOf b % 65521) + Adler32.sumOf b % 65521 := by
  rw [adler32, Adler32.foldl_add]
  rfl

theorem adler32_lt (b : Bytes) : adler32 b < 256 ^ 4 := by
  rw [adler32_eq]
  omega

end CollectionDelta
