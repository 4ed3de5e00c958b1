import CollectionDelta.Bytes
import Mathlib.Algebra.Group.Nat.Defs
import Mathlib.Data.List.Induction

/-!
Big-endian numbers and their bytes are each other's inverse.

* `toNat_append`, `toNat_lt`: the number of some bytes and more, and how great it can be.
* `toNat_ofNat`: the bytes of a number that they have room for.
* `ofNat_toNat`: the number of any bytes.
-/

namespace CollectionDelta.Bytes

theorem toNat_concat (b : Bytes) (x : UInt8) :
    toNat (b ++ [x]) = 256 * toNat b + x.toNat := by
  simp [toNat]

theorem toNat_append (b b' : Bytes) :
    toNat (b ++ b') = toNat b * 256 ^ b'.length + toNat b' := by
  induction b' using List.reverseRecOn with
  | nil => simp [toNat]
  | append_singleton b' x ih =>
    rw [← List.append_assoc, toNat_concat, ih, toNat_concat, List.length_append,
      List.length_singleton, Nat.pow_succ, Nat.mul_add, Nat.add_assoc, ← Nat.mul_assoc,
      ← Nat.mul_assoc, Nat.mul_comm 256, Nat.mul_right_comm]

theorem toNat_cons (x : UInt8) (b : Bytes) :
    toNat (x :: b) = x.toNat * 256 ^ b.length + toNat b := by
  rw [← List.singleton_append, toNat_append]
  simp [toNat]

theorem toNat_lt (b : Bytes) : toNat b < 256 ^ b.length := by
  induction b with
  | nil => exact Nat.one_pos
  | cons x b ih =>
    have hx : (x.toNat + 1) * 256 ^ b.length ≤ 256 * 256 ^ b.length :=
      Nat.mul_le_mul_right _ x.toNat_lt
    rw [toNat_cons, List.length_cons, Nat.pow_succ']
    rw [Nat.succ_mul] at hx
    omega

theorem toNat_ofNat {w n : Nat} (hn : n < 256 ^ w) : toNat (ofNat w n) = n := by
  induction w generalizing n with
  | zero =>
    have : n = 0 := by simpa using hn
    subst this
    rfl
  | succ w ih =>
    have hdiv : n / 256 < 256 ^ w := by
      rw [Nat.div_lt_iff_lt_mul (by decide)]
      exact hn
    have hlast : (UInt8.ofNat n).toNat = n % 256 := UInt8.toNat_ofNat'
    rw [ofNat, toNat_concat, ih hdiv, hlast]
    omega

theorem ofNat_toNat {w : Nat} {b : Bytes} (hw : b.length = w) : ofNat w (toNat b) = b := by
  induction w generalizing b with
  | zero =>
    rw [List.length_eq_zero_iff.1 hw]
    rfl
  | succ w ih =>
    have hb : b ≠ [] := by
      intro h
      simp [h] at hw
    obtain ⟨c, x, rfl⟩ : ∃ c x, b = c ++ [x] := ⟨_, _, (List.dropLast_concat_getLast hb).symm⟩
    have hc : c.length = w := by simpa using hw
    have hx := x.toNat_lt
    have hdiv : (256 * toNat c + x.toNat) / 256 = toNat c := by omega
    have hlast : UInt8.ofNat (256 * toNat c + x.toNat) = x := by
      apply UInt8.toNat_inj.1
      rw [UInt8.toNat_ofNat']
      omega
    rw [ofNat, toNat_concat, hdiv, hlast, ih hc]

end CollectionDelta.Bytes
