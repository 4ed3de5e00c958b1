import CollectionDelta.Lzma.Encode
import CollectionDelta.Proofs.Bytes

/-!
The interval of the range encoder.

* `RangeWriter.value`: all that has been written or is held back, as one number; it is the lower end
  of the interval.
* `RangeWriter.position`: how many bytes that number has.
* `RangeWriter.Room`: numbers up to the upper end do not run over into what has been written.
* `RangeWriter.Shifts`: the number is the same with one more byte; `shifts_shiftLow` says that this
  is what the encoder does, by carry or without.
* `RangeWriter.finish_spec`: at the end, the number stands in the bytes that are out.
-/

namespace CollectionDelta.Lzma.RangeWriter

variable {w w' : RangeWriter} {r : Nat}

/-- The bytes that a carry can still change. -/
def pending (w : RangeWriter) : Bytes := w.cache :: List.replicate (w.cacheSize - 1) 0xFF

def value (w : RangeWriter) : Nat :=
  Bytes.toNat (w.out.data.toList ++ w.pending) * 2 ^ 32 + w.low.toNat

def position (w : RangeWriter) : Nat := w.out.size + w.cacheSize + 4

structure Room (w : RangeWriter) (r : Nat) : Prop where
  cacheSize_pos : 0 < w.cacheSize
  low_add_le : w.low.toNat + r ≤ 2 ^ 33
  fits : Bytes.toNat w.pending * 2 ^ 32 + (w.low.toNat + r) ≤ 256 ^ w.cacheSize * 2 ^ 32

/-- The interval is as wide as before, counted with one more byte. -/
structure Shifts (w w' : RangeWriter) : Prop where
  value : w'.value = 256 * w.value
  position : w'.position = w.position + 1
  range : w'.range = w.range
  low : w'.low.toNat = w.low.toNat % 2 ^ 24 * 256

/-! ## The parts of the low number -/

theorem toNat_kept (low : UInt64) :
    ((low &&& 0x00FFFFFF) <<< 8).toNat = low.toNat % 2 ^ 24 * 256 := by
  have hand : (low &&& 0x00FFFFFF).toNat = low.toNat % 2 ^ 24 := by
    rw [UInt64.toNat_and]
    exact Nat.and_two_pow_sub_one_eq_mod low.toNat 24
  rw [UInt64.toNat_shiftLeft, hand, show (8 : UInt64).toNat % 64 = 8 from rfl, Nat.shiftLeft_eq]
  omega

theorem toNat_upper (low : UInt64) : (low >>> 24).toUInt8.toNat = low.toNat / 2 ^ 24 % 256 := by
  rw [UInt64.toNat_toUInt8, UInt64.toNat_shiftRight, show (24 : UInt64).toNat % 64 = 24 from rfl,
    Nat.shiftRight_eq_div_pow]

theorem toNat_carry (low : UInt64) : (low >>> 32).toUInt8.toNat = low.toNat / 2 ^ 32 % 256 := by
  rw [UInt64.toNat_toUInt8, UInt64.toNat_shiftRight, show (32 : UInt64).toNat % 64 = 32 from rfl,
    Nat.shiftRight_eq_div_pow]

/-! ## What is held back -/

theorem toNat_replicate_succ (k : Nat) : Bytes.toNat (List.replicate k 0xFF) + 1 = 256 ^ k := by
  induction k with
  | zero => rfl
  | succ k ih =>
    have hbyte : (0xFF : UInt8).toNat = 255 := rfl
    rw [List.replicate_succ, Bytes.toNat_cons, List.length_replicate, hbyte, Nat.pow_succ']
    omega

theorem toNat_replicate_zero (k : Nat) : Bytes.toNat (List.replicate k 0) = 0 := by
  induction k with
  | zero => rfl
  | succ k ih =>
    have hbyte : (0 : UInt8).toNat = 0 := rfl
    rw [List.replicate_succ, Bytes.toNat_cons, hbyte, ih, Nat.zero_mul]

theorem length_pending (h : 0 < w.cacheSize) : w.pending.length = w.cacheSize := by
  rw [pending, List.length_cons, List.length_replicate]
  omega

/-- A carry goes through the bytes that are full up to one that is not. -/
theorem toNat_carried (h : Bytes.toNat w.pending + 1 < 256 ^ w.cacheSize) (hpos : 0 < w.cacheSize) :
    Bytes.toNat (w.pending.map (· + 1)) = Bytes.toNat w.pending + 1 := by
  have hfull := toNat_replicate_succ (w.cacheSize - 1)
  have hpow : 256 ^ w.cacheSize = 256 * 256 ^ (w.cacheSize - 1) := by
    rw [← Nat.pow_succ', Nat.succ_eq_add_one, Nat.sub_add_cancel hpos]
  rw [pending, Bytes.toNat_cons, List.length_replicate] at h ⊢
  have hcache : w.cache.toNat + 1 < 256 := by
    refine Nat.lt_of_mul_lt_mul_right (a := 256 ^ (w.cacheSize - 1)) ?_
    rw [Nat.succ_mul]
    omega
  have hnext : (w.cache + 1).toNat = w.cache.toNat + 1 := by
    rw [UInt8.toNat_add]
    exact Nat.mod_eq_of_lt hcache
  rw [List.map_cons, List.map_replicate, Bytes.toNat_cons, List.length_replicate, hnext,
    show (0xFF : UInt8) + 1 = 0 from rfl, toNat_replicate_zero, Nat.succ_mul]
  omega

theorem toList_released (out : ByteArray) (cache carry : UInt8) (k : Nat) :
    ((k + 1).fold (fun i _ o => o.push ((if i = 0 then cache else 0xFF) + carry)) out).data.toList =
      out.data.toList ++ (cache :: List.replicate k 0xFF).map (· + carry) := by
  induction k with
  | zero => simp
  | succ k ih =>
    rw [Nat.fold_succ, List.replicate_succ', ← List.cons_append, List.map_append,
      ← List.append_assoc, ← ih]
    simp

/-! ## One more byte -/

theorem shiftLow_held (h : 0xFF000000 ≤ w.low.toNat) (h' : w.low.toNat ≤ 0xFFFFFFFF) :
    shiftLow w = { w with low := (w.low &&& 0x00FFFFFF) <<< 8, cacheSize := w.cacheSize + 1 } := by
  have hlow : ¬ (w.low < 0xFF000000 ∨ 0xFFFFFFFF < w.low) := by
    rw [UInt64.lt_iff_toNat_lt, UInt64.lt_iff_toNat_lt]
    exact not_or.2 ⟨Nat.not_lt.2 h, Nat.not_lt.2 h'⟩
  obtain ⟨out, low, range, cache, cacheSize⟩ := w
  exact if_neg hlow

theorem shiftLow_settled (h : w.low.toNat < 0xFF000000 ∨ 0xFFFFFFFF < w.low.toNat)
    (hpos : 0 < w.cacheSize) : ∃ out : ByteArray, out.data.toList = w.out.data.toList ++
        w.pending.map (· + (w.low >>> 32).toUInt8) ∧
      shiftLow w = { w with
        out, low := (w.low &&& 0x00FFFFFF) <<< 8, cache := (w.low >>> 24).toUInt8,
        cacheSize := 1 } := by
  have hlow : w.low < 0xFF000000 ∨ 0xFFFFFFFF < w.low := by
    rw [UInt64.lt_iff_toNat_lt, UInt64.lt_iff_toNat_lt]
    exact h
  obtain ⟨out, low, range, cache, cacheSize⟩ := w
  obtain ⟨k, rfl⟩ : ∃ k, cacheSize = k + 1 := ⟨cacheSize - 1, (Nat.sub_add_cancel hpos).symm⟩
  exact ⟨_, toList_released out cache _ k, if_pos hlow⟩

theorem value_eq (w : RangeWriter) (hpos : 0 < w.cacheSize) :
    w.value = (Bytes.toNat w.out.data.toList * 256 ^ w.cacheSize + Bytes.toNat w.pending) * 2 ^ 32 +
      w.low.toNat := by
  rw [value, Bytes.toNat_append, length_pending hpos]

/-- After a byte that is not full, or past a carry, there is room in the byte held back. -/
theorem upper_fits {low : Nat} (h : low < 0xFF000000 ∨ 0xFFFFFFFF < low) (hr : 0 < r)
    (hr' : r ≤ 2 ^ 24) (hlow : low + r ≤ 2 ^ 33) :
    low / 2 ^ 24 % 256 * 2 ^ 32 + (low % 2 ^ 24 * 256 + 256 * r) ≤ 256 ^ 1 * 2 ^ 32 := by
  omega

/-- The bytes that were held back go out, with the carry, and the next byte is held back. -/
theorem shifts_settled (h : w.low.toNat < 0xFF000000 ∨ 0xFFFFFFFF < w.low.toNat) (hw : w.Room r)
    (hr : 0 < r) (hr' : r ≤ 2 ^ 24) : (shiftLow w).Room (256 * r) ∧ w.Shifts (shiftLow w) := by
  obtain ⟨out, hout, heq⟩ := shiftLow_settled h hw.cacheSize_pos
  generalize shiftLow w = v at heq ⊢
  have hlow := hw.low_add_le
  have hfits := hw.fits
  have hsum : Bytes.toNat (w.pending.map (· + (w.low >>> 32).toUInt8)) =
      Bytes.toNat w.pending + w.low.toNat / 2 ^ 32 := by
    have hcarry := toNat_carry w.low
    rcases h with h | h
    · have hzero : (w.low >>> 32).toUInt8 = 0 := by
        rw [← UInt8.toNat_inj, hcarry]
        exact (by omega : w.low.toNat / 2 ^ 32 % 256 = 0)
      rw [hzero]
      simp
      omega
    · have hone : (w.low >>> 32).toUInt8 = 1 := by
        rw [← UInt8.toNat_inj, hcarry]
        exact (by omega : w.low.toNat / 2 ^ 32 % 256 = 1)
      rw [hone, toNat_carried (by omega) hw.cacheSize_pos]
      omega
  have hlength : out.size = w.out.size + w.cacheSize := by
    have hlen := congrArg List.length hout
    rw [List.length_append, List.length_map, length_pending hw.cacheSize_pos] at hlen
    exact hlen
  have hpending : Bytes.toNat v.pending = w.low.toNat / 2 ^ 24 % 256 := by
    rw [heq, ← toNat_upper, pending, Bytes.toNat_cons]
    exact Nat.mul_one _
  have hkept : v.low.toNat = w.low.toNat % 2 ^ 24 * 256 := by
    rw [heq]
    exact toNat_kept w.low
  have hsize : v.cacheSize = 1 := by rw [heq]
  have hreleased : Bytes.toNat v.out.data.toList =
      Bytes.toNat w.out.data.toList * 256 ^ w.cacheSize +
        (Bytes.toNat w.pending + w.low.toNat / 2 ^ 32) := by
    rw [heq, ← hsum, ← length_pending hw.cacheSize_pos, ← List.length_map, ← Bytes.toNat_append,
      ← hout]
  refine ⟨⟨by omega, by omega, ?_⟩, ?_, ?_, by rw [heq], hkept⟩
  · rw [hpending, hkept, hsize]
    exact upper_fits h hr hr' hlow
  · rw [value_eq w hw.cacheSize_pos, value_eq v (by omega), hreleased, hpending, hkept,
      hsize]
    omega
  · rw [position, hsize, heq, position]
    dsimp only
    omega

theorem shifts_held (h : 0xFF000000 ≤ w.low.toNat) (h' : w.low.toNat ≤ 0xFFFFFFFF) (hw : w.Room r)
    (hr' : r ≤ 2 ^ 24) : (shiftLow w).Room (256 * r) ∧ w.Shifts (shiftLow w) := by
  have heq := shiftLow_held h h'
  generalize shiftLow w = v at heq ⊢
  have hfits := hw.fits
  have hpending : Bytes.toNat v.pending = Bytes.toNat w.pending * 256 + 255 := by
    have hmore : v.pending = w.pending ++ [0xFF] := by
      have hpos := hw.cacheSize_pos
      rw [heq, pending, pending, List.cons_append, ← List.replicate_succ']
      dsimp only
      rw [show w.cacheSize + 1 - 1 = w.cacheSize - 1 + 1 by omega]
    rw [hmore, Bytes.toNat_append]
    rfl
  have hkept : v.low.toNat = w.low.toNat % 2 ^ 24 * 256 := by
    rw [heq]
    exact toNat_kept w.low
  have hsize : v.cacheSize = w.cacheSize + 1 := by rw [heq]
  have hout : v.out = w.out := by rw [heq]
  refine ⟨⟨by omega, by omega, ?_⟩, ?_, ?_, by rw [heq], hkept⟩
  · have hlow : w.low.toNat % 2 ^ 24 = w.low.toNat - 255 * 2 ^ 24 := by omega
    rw [hpending, hkept, hsize, hlow]
    calc (Bytes.toNat w.pending * 256 + 255) * 2 ^ 32 +
          ((w.low.toNat - 255 * 2 ^ 24) * 256 + 256 * r)
        = 256 * (Bytes.toNat w.pending * 2 ^ 32 + (w.low.toNat + r)) := by omega
      _ ≤ 256 * (256 ^ w.cacheSize * 2 ^ 32) := Nat.mul_le_mul_left 256 hfits
      _ = 256 ^ (w.cacheSize + 1) * 2 ^ 32 := by rw [← Nat.mul_assoc, ← Nat.pow_succ']
  · rw [value_eq w hw.cacheSize_pos, value_eq v (by omega), hout, hpending, hkept,
      hsize, Nat.pow_succ, ← Nat.mul_assoc]
    omega
  · rw [position, hsize, heq, position]
    dsimp only
    omega

theorem shifts_shiftLow (hw : w.Room r) (hr : 0 < r) (hr' : r ≤ 2 ^ 24) :
    (shiftLow w).Room (256 * r) ∧ w.Shifts (shiftLow w) := by
  by_cases h : 0xFF000000 ≤ w.low.toNat ∧ w.low.toNat ≤ 0xFFFFFFFF
  · exact shifts_held h.1 h.2 hw hr'
  · exact shifts_settled (by omega) hw hr hr'

/-! ## The end -/

theorem Room.mono {s : Nat} (hw : w.Room r) (h : s ≤ r) : w.Room s := by
  obtain ⟨hpos, hlow, hfits⟩ := hw
  exact ⟨hpos, by omega, by omega⟩

theorem exists_shiftLow (hw : w.Room 1) : ∃ v, shiftLow w = v ∧ v.Room 1 ∧ w.Shifts v := by
  obtain ⟨hroom, hshifts⟩ := shifts_shiftLow hw Nat.one_pos (by decide)
  exact ⟨_, rfl, hroom.mono (by decide), hshifts⟩

/-- Four bytes of the low number go out, and the byte before them, which was held back. -/
theorem finish_spec (hw : w.Room r) (hr : 0 < r) :
    w.finish.out.size = w.position ∧ Bytes.toNat w.finish.out.data.toList = w.value := by
  obtain ⟨w₁, e₁, room₁, shifts₁⟩ := exists_shiftLow (hw.mono hr)
  obtain ⟨w₂, e₂, room₂, shifts₂⟩ := exists_shiftLow room₁
  obtain ⟨w₃, e₃, room₃, shifts₃⟩ := exists_shiftLow room₂
  obtain ⟨w₄, e₄, room₄, shifts₄⟩ := exists_shiftLow room₃
  obtain ⟨w₅, e₅, room₅, shifts₅⟩ := exists_shiftLow room₄
  have hfinish : w.finish = w₅ := by
    rw [← e₅, ← e₄, ← e₃, ← e₂, ← e₁]
    rfl
  have hlow : w₄.low.toNat = 0 := by
    have h₁ := shifts₁.low
    have h₂ := shifts₂.low
    have h₃ := shifts₃.low
    have h₄ := shifts₄.low
    omega
  obtain ⟨out, -, hlast⟩ := shiftLow_settled (.inl (by omega)) room₄.cacheSize_pos
  rw [e₅] at hlast
  have hsize : w₅.cacheSize = 1 := by rw [hlast]
  have hpending : Bytes.toNat w₅.pending = 0 := by
    have hcache := toNat_upper w₄.low
    rw [hlow] at hcache
    rw [hlast, pending, Bytes.toNat_cons, hcache]
    rfl
  have hvalue : w₅.value = 256 ^ 5 * w.value := by
    rw [shifts₅.value, shifts₄.value, shifts₃.value, shifts₂.value, shifts₁.value]
    omega
  have hposition : w₅.position = w.position + 5 := by
    rw [shifts₅.position, shifts₄.position, shifts₃.position, shifts₂.position, shifts₁.position]
  rw [value_eq w₅ room₅.cacheSize_pos, hsize, hpending, shifts₅.low, hlow] at hvalue
  rw [position, hsize] at hposition
  rw [hfinish]
  exact ⟨by omega, by omega⟩

end CollectionDelta.Lzma.RangeWriter
