import CollectionDelta.Proofs.Bytes
import CollectionDelta.Proofs.Checksum
import Mathlib.Data.Nat.ModEq
import Mathlib.Tactic.NormNum.Prime
import Mathlib.Tactic.Ring

/-!
Which corruptions of a payload its checksum tells.

* `Adler32.sumsOf_append`, `Adler32.sumsOf_swap`: the second sum weighs each byte by how many come
  after it, so that it changes where two bytes change places.
* `Adler32.adler32_ne_of_byte`, `Adler32.adler32_ne_of_swap`: the first sum tells a byte that is
  another one, and the second one two bytes that have changed places; the modulus is a prime.
* `Corrupted`: one corruption of a payload or of its stored checksum; `Corrupted.sum_ne` says that
  the two do not belong together afterwards.
-/

namespace CollectionDelta

namespace Adler32

variable {u v w : Bytes} {x y : UInt8}

/-! ## The sums of parts -/

def total (b : Bytes) : Nat := (b.map UInt8.toNat).sum

theorem total_append (b c : Bytes) : total (b ++ c) = total b + total c := by
  simp [total]

theorem total_cons (x : UInt8) (b : Bytes) : total (x :: b) = x.toNat + total b := by
  simp [total]

theorem sumOf_eq (b : Bytes) : sumOf b = 1 + total b := rfl

theorem sumsOf_append (b c : Bytes) :
    sumsOf (b ++ c) = sumsOf b + c.length * total b + sumsOf c := by
  induction c using List.reverseRecOn with
  | nil => simp [sumsOf]
  | append_singleton c x ih =>
    rw [← List.append_assoc, sumsOf_concat, sumsOf_concat, ih, sumOf_eq, sumOf_eq,
      List.append_assoc, total_append b, List.length_append, List.length_singleton]
    ring

theorem sumsOf_cons (x : UInt8) (b : Bytes) :
    sumsOf (x :: b) = 1 + x.toNat + b.length * x.toNat + sumsOf b := by
  rw [← List.singleton_append, sumsOf_append]
  simp [sumsOf, sumOf, total]

theorem sumsOf_swap (u v w : Bytes) (x y : UInt8) :
    sumsOf (u ++ x :: (v ++ y :: w)) + (v.length + 1) * y.toNat =
      sumsOf (u ++ y :: (v ++ x :: w)) + (v.length + 1) * x.toNat := by
  simp only [sumsOf_append, sumsOf_cons, List.length_append, List.length_cons]
  ring

/-! ## What the checksum tells -/

theorem prime_modulus : Nat.Prime 65521 := by norm_num

/-- Payloads with the same checksum have both sums in common. -/
theorem modEq_of_adler32_eq {b c : Bytes} (h : adler32 b = adler32 c) :
    sumOf b ≡ sumOf c [MOD 65521] ∧ sumsOf b ≡ sumsOf c [MOD 65521] := by
  rw [adler32_eq, adler32_eq] at h
  unfold Nat.ModEq
  omega

/-- Bytes of the same remainder are the same. -/
theorem byte_eq_of_modEq (h : x.toNat ≡ y.toNat [MOD 65521]) : x = y := by
  have hx := x.toNat_lt
  have hy := y.toNat_lt
  exact UInt8.toNat_inj.1 (h.eq_of_lt_of_lt (by omega) (by omega))

theorem adler32_ne_of_byte (hxy : x ≠ y) : adler32 (u ++ x :: v) ≠ adler32 (u ++ y :: v) := by
  intro h
  have hsum := (modEq_of_adler32_eq h).1
  rw [sumOf_eq, sumOf_eq, total_append, total_append, total_cons, total_cons] at hsum
  exact hxy (byte_eq_of_modEq
    (((hsum.add_left_cancel' 1).add_left_cancel' (total u)).add_right_cancel' (total v)))

theorem adler32_ne_of_swap (hxy : x ≠ y) (hv : v.length + 1 < 65521) :
    adler32 (u ++ x :: (v ++ y :: w)) ≠ adler32 (u ++ y :: (v ++ x :: w)) := by
  intro h
  have hsums := (modEq_of_adler32_eq h).2
  have hweighted : (v.length + 1) * y.toNat ≡ (v.length + 1) * x.toNat [MOD 65521] := by
    refine hsums.add_left_cancel ?_
    rw [sumsOf_swap]
  have hcoprime : Nat.gcd 65521 (v.length + 1) = 1 :=
    (Nat.Prime.coprime_iff_not_dvd prime_modulus).2 (Nat.not_dvd_of_pos_of_lt (by omega) hv)
  exact hxy (byte_eq_of_modEq (hweighted.cancel_left_of_coprime hcoprime).symm)

end Adler32

/-! ## Corruptions -/

/-- A payload and its stored checksum of which one byte of the payload is another one, two
different ones fewer than 65521 places apart have changed places, or the checksum is another one. -/
inductive Corrupted (raw sum : Bytes) : Bytes → Bytes → Prop
  | byte {u v : Bytes} {x y : UInt8} (hraw : raw = u ++ x :: v) (hxy : x ≠ y) :
      Corrupted raw sum (u ++ y :: v) sum
  | swap {u v w : Bytes} {x y : UInt8} (hraw : raw = u ++ x :: (v ++ y :: w)) (hxy : x ≠ y)
      (hv : v.length + 1 < 65521) : Corrupted raw sum (u ++ y :: (v ++ x :: w)) sum
  | sum {sum' : Bytes} (hlen : sum'.length = sum.length) (hsum : sum' ≠ sum) :
      Corrupted raw sum raw sum'

namespace Corrupted

variable {raw raw' sum sum' : Bytes}

theorem length_eq (h : Corrupted raw sum raw' sum') :
    raw'.length = raw.length ∧ sum'.length = sum.length := by
  cases h with
  | byte hraw => simp [hraw]
  | swap hraw => simp [hraw]
  | sum hlen => exact ⟨rfl, hlen⟩

theorem sum_ne (h : Corrupted raw (Bytes.ofNat 4 (adler32 raw)) raw' sum') :
    sum' ≠ Bytes.ofNat 4 (adler32 raw') := by
  have hbytes {b : Bytes} (hb : adler32 raw ≠ adler32 b) :
      Bytes.ofNat 4 (adler32 raw) ≠ Bytes.ofNat 4 (adler32 b) := by
    intro heq
    have hnat := congrArg Bytes.toNat heq
    rw [Bytes.toNat_ofNat (adler32_lt _), Bytes.toNat_ofNat (adler32_lt _)] at hnat
    exact hb hnat
  cases h with
  | byte hraw hxy => exact hbytes (hraw ▸ Adler32.adler32_ne_of_byte hxy)
  | swap hraw hxy hv => exact hbytes (hraw ▸ Adler32.adler32_ne_of_swap hxy hv)
  | sum hlen hsum => exact hsum

end Corrupted
end CollectionDelta
