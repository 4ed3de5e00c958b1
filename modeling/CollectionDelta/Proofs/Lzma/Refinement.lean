import CollectionDelta.Lzma.Decode
import CollectionDelta.Proofs.FirstBytes
import CollectionDelta.Proofs.Lzma.Interval
import Mathlib.Algebra.Order.Field.Rat
import Mathlib.Tactic.Linarith

/-!
The range encoder narrows an interval.

* `Within`: data, read as a number, lie in the interval of a writer.
* `Sound`: a writer between two bits.
* `part`: a part of the interval; `normalize_cases`: what normalizing does to it.
* `Refines`: from one writer to a later one, the interval is a part of what it was.
* `refines_bit`, `refines_directOne`: one more bit; `width_bit_le`, `width_directOne_le` say how
  much of the interval it leaves.
* `position_lt`, `le_bitsPerByte_mul`: what has been narrowed enough has more bytes.
-/

namespace CollectionDelta.Lzma

/-- The first bytes of some data as a number. -/
def prefixValue (input : ByteArray) (n : Nat) : Nat := Bytes.toNat (input.data.toList.take n)

theorem prefixValue_succ {input : ByteArray} {n : Nat} (h : n < input.size) :
    prefixValue input (n + 1) = 256 * prefixValue input n + (input.get! n).toNat := by
  rw [prefixValue, List.take_add_one, getElem?_toList h, Option.toList_some, Bytes.toNat_concat]
  rfl

namespace RangeWriter

variable {w w' w'' : RangeWriter} {input : ByteArray} {p : Nat}

structure Within (w : RangeWriter) (input : ByteArray) : Prop where
  position_le : w.position ≤ input.size
  value_le : w.value ≤ prefixValue input w.position
  lt_add : prefixValue input w.position < w.value + w.range.toNat

structure Sound (w : RangeWriter) : Prop where
  room : w.Room w.range.toNat
  range_ge : 2 ^ 24 ≤ w.range.toNat

/-! ## A part of the interval -/

def part (w : RangeWriter) (start length : UInt32) : RangeWriter :=
  { w with low := w.low + start.toUInt64, range := length }

theorem toNat_low_part {start : UInt32} (hw : w.Room w.range.toNat)
    (h : start.toNat ≤ w.range.toNat) (length : UInt32) :
    (w.part start length).low.toNat = w.low.toNat + start.toNat := by
  have hlow := hw.low_add_le
  change (w.low + start.toUInt64).toNat = _
  rw [UInt64.toNat_add, UInt32.toNat_toUInt64]
  exact Nat.mod_eq_of_lt (by omega)

theorem value_part {start : UInt32} (hw : w.Room w.range.toNat)
    (h : start.toNat ≤ w.range.toNat) (length : UInt32) :
    (w.part start length).value = w.value + start.toNat := by
  rw [value, toNat_low_part hw h]
  exact (Nat.add_assoc ..).symm

theorem room_part {start length : UInt32} (hw : w.Room w.range.toNat)
    (h : start.toNat + length.toNat ≤ w.range.toNat) :
    (w.part start length).Room length.toNat := by
  obtain ⟨hpos, hlow, hfits⟩ := hw
  have hpart := toNat_low_part ⟨hpos, hlow, hfits⟩ (Nat.le_of_add_right_le h) length
  have hpending : (w.part start length).pending = w.pending := rfl
  exact ⟨hpos, by omega, by rw [hpending]; change _ ≤ 256 ^ w.cacheSize * 2 ^ 32; omega⟩

theorem Within.of_part {start length : UInt32} (hw : w.Room w.range.toNat)
    (h : start.toNat + length.toNat ≤ w.range.toNat) (hp : (w.part start length).Within input) :
    w.Within input := by
  have hvalue := value_part hw (Nat.le_of_add_right_le h) length
  have hposition : (w.part start length).position = w.position := rfl
  obtain ⟨hsize, hle, hlt⟩ := hp
  rw [hposition, hvalue] at hle hlt
  change _ < _ + length.toNat at hlt
  exact ⟨hsize, by omega, by omega⟩

/-! ## Normalizing -/

/-- The same interval, counted with one more byte. -/
structure Widens (w w' : RangeWriter) : Prop where
  range_lt : w.range.toNat < 2 ^ 24
  sound : w'.Sound
  value : w'.value = 256 * w.value
  position : w'.position = w.position + 1
  range : w'.range = w.range <<< 8

theorem toNat_range_shiftLeft {r : UInt32} (h : r.toNat < 2 ^ 24) :
    (r <<< 8).toNat = 256 * r.toNat := by
  rw [UInt32.toNat_shiftLeft, show (8 : UInt32).toNat % 32 = 8 from rfl, Nat.shiftLeft_eq]
  omega

theorem normalize_cases (hw : w.Room w.range.toNat) (h : 2 ^ 16 ≤ w.range.toNat) :
    w.Sound ∧ normalize w 4 = w ∨ w.Widens (normalize w 4) := by
  by_cases hge : 2 ^ 24 ≤ w.range.toNat
  · have hrange : ¬ w.range < 0x1000000 := by
      rw [UInt32.lt_iff_toNat_lt]
      exact Nat.not_lt.2 hge
    exact .inl ⟨⟨hw, hge⟩, if_neg hrange⟩
  · have hlt : w.range.toNat < 2 ^ 24 := Nat.lt_of_not_le hge
    have hrange : w.range < 0x1000000 := UInt32.lt_iff_toNat_lt.2 hlt
    have hwide := toNat_range_shiftLeft hlt
    have hroom : ({ w with range := w.range <<< 8 } : RangeWriter).Room w.range.toNat :=
      ⟨hw.cacheSize_pos, hw.low_add_le, hw.fits⟩
    obtain ⟨hroom', hshifts⟩ := shifts_shiftLow hroom (by omega) (Nat.le_of_lt hlt)
    have heq : normalize w 4 = shiftLow { w with range := w.range <<< 8 } := by
      rw [normalize, if_pos hrange, normalize, if_neg]
      rw [hshifts.range, UInt32.lt_iff_toNat_lt]
      change ¬ (w.range <<< 8).toNat < 2 ^ 24
      omega
    rw [heq]
    refine .inr ⟨hlt, ⟨?_, ?_⟩, hshifts.value, hshifts.position, hshifts.range⟩
    · rw [hshifts.range]
      exact hwide.symm ▸ hroom'
    · rw [hshifts.range]
      change 2 ^ 24 ≤ (w.range <<< 8).toNat
      omega

theorem Widens.within (h : w.Widens w') (hw : w'.Within input) : w.Within input := by
  obtain ⟨hsize, hle, hlt⟩ := hw
  have hrange := toNat_range_shiftLeft h.range_lt
  have hbyte := (input.get! w.position).toNat_lt
  rw [h.position] at hsize hle hlt
  rw [h.value, prefixValue_succ hsize] at hle hlt
  rw [h.range, hrange] at hlt
  exact ⟨Nat.le_of_succ_le hsize, by omega, by omega⟩

theorem Within.of_normalize (hw : w.Room w.range.toNat) (h : 2 ^ 16 ≤ w.range.toNat)
    (hin : (normalize w 4).Within input) : w.Within input := by
  rcases normalize_cases hw h with ⟨-, heq⟩ | hwide
  · exact heq ▸ hin
  · exact hwide.within hin

/-! ## What is left of the interval -/

/-- The length of the interval, as a part of all that there is. -/
def width (w : RangeWriter) : ℚ := w.range.toNat / 256 ^ w.position

theorem width_nonneg (w : RangeWriter) : 0 ≤ w.width :=
  div_nonneg (Nat.cast_nonneg _) (by positivity)

theorem Widens.width (h : w.Widens w') : w'.width = w.width := by
  have hrange := toNat_range_shiftLeft h.range_lt
  rw [RangeWriter.width, RangeWriter.width, h.range, hrange, h.position, pow_succ']
  push_cast
  exact mul_div_mul_left _ _ (by norm_num)

theorem width_le {c : ℚ} (hposition : w'.position = w.position)
    (h : (w'.range.toNat : ℚ) ≤ c * w.range.toNat) : w'.width ≤ c * w.width := by
  rw [width, width, hposition, ← mul_div_assoc]
  exact div_le_div_of_nonneg_right h (by positivity)

structure Refines (w w' : RangeWriter) : Prop where
  sound : w'.Sound
  within : ∀ input, w'.Within input → w.Within input
  width_le : w'.width ≤ w.width

theorem Refines.refl (h : w.Sound) : w.Refines w := ⟨h, fun _ => id, le_rfl⟩

theorem Refines.trans (h : w.Refines w') (h' : w'.Refines w'') : w.Refines w'' :=
  ⟨h'.sound, fun input hw => h.within input (h'.within input hw), h'.width_le.trans h.width_le⟩

theorem width_part_le {start length : UInt32} {c : ℚ} (hw : w.Sound)
    (h : start.toNat + length.toNat ≤ w.range.toNat) (hlength : 2 ^ 16 ≤ length.toNat)
    (hc : (length.toNat : ℚ) ≤ c * w.range.toNat) :
    (normalize (w.part start length) 4).width ≤ c * w.width := by
  have hpart : (w.part start length).width ≤ c * w.width := width_le rfl hc
  rcases normalize_cases (room_part hw.room h) hlength with ⟨-, heq⟩ | hwide
  · rwa [heq]
  · rwa [hwide.width]

theorem refines_part {start length : UInt32} (hw : w.Sound)
    (h : start.toNat + length.toNat ≤ w.range.toNat) (hlength : 2 ^ 16 ≤ length.toNat) :
    w.Refines (normalize (w.part start length) 4) := by
  have hroom := room_part hw.room h
  have hle : (length.toNat : ℚ) ≤ 1 * w.range.toNat := by
    rw [one_mul]
    exact_mod_cast Nat.le_of_add_left_le h
  refine ⟨?_, fun input hin => (hin.of_normalize hroom hlength).of_part hw.room h,
    (width_part_le hw h hlength hle).trans_eq (one_mul w.width)⟩
  rcases normalize_cases hroom hlength with ⟨hsound, heq⟩ | hwide
  · exact heq.symm ▸ hsound
  · exact hwide.sound

/-! ## Bits -/

/-- How likely a zero can become under the model. -/
def Likely (p : Nat) : Prop := 31 ≤ p ∧ p ≤ 2017

theorem likely_half : Likely Model.half := ⟨by decide, by decide⟩

theorem Likely.adapted (h : Likely p) (b : Bool) : Likely (Model.adapted p b) := by
  obtain ⟨hlow, hhigh⟩ := h
  simp only [Likely, Model.adapted, Model.scale, Model.rate, Nat.shiftRight_eq_div_pow]
  split <;> omega

def bound (range : UInt32) (p : Nat) : UInt32 := (range >>> 11) * UInt32.ofNat p

theorem toNat_bound (range : UInt32) (h : Likely p) :
    (bound range p).toNat = range.toNat / 2048 * p := by
  have hrange := range.toNat_lt
  have hmul : range.toNat / 2048 * p ≤ 2 ^ 21 * 2017 := Nat.mul_le_mul (by omega) h.2
  have hp : (UInt32.ofNat p).toNat = p := by
    have hhigh := h.2
    rw [UInt32.toNat_ofNat']
    exact Nat.mod_eq_of_lt (by omega)
  rw [bound, UInt32.toNat_mul, UInt32.toNat_shiftRight, hp,
    show (11 : UInt32).toNat % 32 = 11 from rfl, Nat.shiftRight_eq_div_pow]
  exact Nat.mod_eq_of_lt (Nat.lt_of_le_of_lt hmul (by decide))

/-- The part of the interval for a bit: zeros have the lower one. -/
def bitStart (range : UInt32) (p : Nat) (b : Bool) : UInt32 := if b then bound range p else 0

def bitLength (range : UInt32) (p : Nat) (b : Bool) : UInt32 :=
  if b then range - bound range p else bound range p

theorem bit_eq (w : RangeWriter) (p : Nat) (b : Bool) :
    w.bit p b = normalize (w.part (bitStart w.range p b) (bitLength w.range p b)) 4 := by
  cases b with
  | false =>
    have hlow : w.low + (0 : UInt32).toUInt64 = w.low := UInt64.add_zero _
    change normalize { w with range := bound w.range p } 4 = normalize (w.part 0 _) 4
    rw [part, hlow]
    rfl
  | true => rfl

/-- Each bit leaves a part that is neither nothing nor all. -/
theorem bitLength_spec (hrange : 2 ^ 24 ≤ w.range.toNat) (h : Likely p) (b : Bool) :
    (bitStart w.range p b).toNat + (bitLength w.range p b).toNat ≤ w.range.toNat ∧
      2 ^ 16 ≤ (bitLength w.range p b).toNat ∧
      1024 * (bitLength w.range p b).toNat ≤ 1009 * w.range.toNat := by
  have hbound := toNat_bound w.range h
  have hlow : w.range.toNat / 2048 * 31 ≤ w.range.toNat / 2048 * p := Nat.mul_le_mul_left _ h.1
  have hhigh : w.range.toNat / 2048 * p ≤ w.range.toNat / 2048 * 2017 :=
    Nat.mul_le_mul_left _ h.2
  cases b with
  | false =>
    have hzero : (bitStart w.range p false).toNat = 0 := rfl
    have hlength : bitLength w.range p false = bound w.range p := rfl
    rw [hzero, hlength]
    exact ⟨by omega, by omega, by omega⟩
  | true =>
    have hle : bound w.range p ≤ w.range := UInt32.le_iff_toNat_le.2 (by omega)
    have hstart : bitStart w.range p true = bound w.range p := rfl
    have hlength : (bitLength w.range p true).toNat = w.range.toNat - (bound w.range p).toNat :=
      UInt32.toNat_sub_of_le _ _ hle
    rw [hstart, hlength]
    exact ⟨by omega, by omega, by omega⟩

theorem refines_bit (hw : w.Sound) (h : Likely p) (b : Bool) : w.Refines (w.bit p b) := by
  obtain ⟨hle, hge, -⟩ := bitLength_spec hw.range_ge h b
  rw [bit_eq]
  exact refines_part hw hle hge

theorem width_bit_le (hw : w.Sound) (h : Likely p) (b : Bool) :
    (w.bit p b).width ≤ 1009 / 1024 * w.width := by
  obtain ⟨hle, hge, hlt⟩ := bitLength_spec hw.range_ge h b
  rw [bit_eq]
  refine width_part_le hw hle hge ?_
  have hlt : (1024 : ℚ) * (bitLength w.range p b).toNat ≤ 1009 * w.range.toNat := by
    exact_mod_cast hlt
  linarith

/-- Both halves have room in the interval. -/
theorem halves_le (hw : w.Sound) :
    (w.range >>> 1).toNat + (w.range >>> 1).toNat ≤ w.range.toNat ∧
      2 ^ 16 ≤ (w.range >>> 1).toNat := by
  have hrange := hw.range_ge
  have hhalf : (w.range >>> 1).toNat = w.range.toNat / 2 := by
    rw [UInt32.toNat_shiftRight, show (1 : UInt32).toNat % 32 = 1 from rfl,
      Nat.shiftRight_eq_div_pow]
  exact ⟨by omega, by omega⟩

theorem refines_directOne (hw : w.Sound) : w.Refines w.directOne :=
  refines_part hw (halves_le hw).1 (halves_le hw).2

theorem width_directOne_le (hw : w.Sound) : w.directOne.width ≤ 1 / 2 * w.width := by
  obtain ⟨hle, hge⟩ := halves_le hw
  refine width_part_le hw hle hge ?_
  have hle : ((w.range >>> 1).toNat : ℚ) + (w.range >>> 1).toNat ≤ w.range.toNat := by
    exact_mod_cast hle
  linarith

theorem width_directOne_iterate_le (hw : w.Sound) (n : Nat) :
    (directOne^[n] w).width ≤ (1 / 2) ^ n * w.width := by
  induction n generalizing w with
  | zero => simp
  | succ n ih =>
    calc (directOne^[n + 1] w).width ≤ (1 / 2) ^ n * w.directOne.width :=
          ih (refines_directOne hw).sound
      _ ≤ (1 / 2) ^ n * (1 / 2 * w.width) :=
          mul_le_mul_of_nonneg_left (width_directOne_le hw) (by positivity)
      _ = (1 / 2) ^ (n + 1) * w.width := by rw [pow_succ, mul_assoc]

/-! ## Widths and positions -/

theorem width_lt (w : RangeWriter) : w.width < 2 ^ 32 / 256 ^ w.position := by
  have hrange : (w.range.toNat : ℚ) < 2 ^ 32 := by exact_mod_cast w.range.toNat_lt
  exact div_lt_div_of_pos_right hrange (by positivity)

theorem Sound.le_width (hw : w.Sound) : 2 ^ 24 / 256 ^ w.position ≤ w.width := by
  have hrange : (2 ^ 24 : ℚ) ≤ w.range.toNat := by exact_mod_cast hw.range_ge
  exact div_le_div_of_nonneg_right hrange (by positivity)

/-- Where no more than a byte's part of the interval is left, a byte more has been settled. -/
theorem position_lt (hw : w'.Sound) (h : w'.width ≤ 1 / 256 * w.width) :
    w.position < w'.position := by
  by_contra hle
  have hpow : (256 : ℚ) ^ w'.position ≤ 256 ^ w.position :=
    pow_le_pow_right₀ (by norm_num) (Nat.le_of_not_lt hle)
  have hlow : (2 : ℚ) ^ 24 / 256 ^ w.position ≤ 2 ^ 24 / 256 ^ w'.position :=
    div_le_div_of_nonneg_left (by norm_num) (by positivity) hpow
  have hhigh : 1 / 256 * (2 ^ 32 / 256 ^ w.position : ℚ) = 2 ^ 24 / 256 ^ w.position := by
    rw [← mul_div_assoc]
    norm_num
  have hlt := w.width_lt
  have hge := hw.le_width
  linarith

theorem pow_bitsPerByte_le : (1009 / 1024 : ℚ) ^ bitsPerByte ≤ 1 / 256 := by
  calc (1009 / 1024 : ℚ) ^ bitsPerByte = ((1009 / 1024) ^ 40) ^ 10 := by rw [← pow_mul]; rfl
    _ ≤ (5 / 9) ^ 10 := pow_le_pow_left₀ (by positivity) (by norm_num) 10
    _ ≤ 1 / 256 := by norm_num

/-- Fewer bits than `bitsPerByte` settle a byte. -/
theorem le_bitsPerByte_mul {n : Nat} (hw : w'.Sound) (hone : w.width ≤ 1)
    (h : w'.width ≤ (1009 / 1024) ^ n * w.width) : n ≤ bitsPerByte * w'.position := by
  by_contra hlt
  have hpow : (1009 / 1024 : ℚ) ^ n ≤ 1 / 256 ^ w'.position := by
    calc (1009 / 1024 : ℚ) ^ n ≤ (1009 / 1024) ^ (bitsPerByte * w'.position) :=
          pow_le_pow_of_le_one (by norm_num) (by norm_num) (Nat.le_of_not_le hlt)
      _ ≤ (1 / 256) ^ w'.position := by
          rw [pow_mul]
          exact pow_le_pow_left₀ (by positivity) pow_bitsPerByte_le _
      _ = 1 / 256 ^ w'.position := by rw [one_div_pow]
  have hge := hw.le_width
  have hle : (2 : ℚ) ^ 24 / 256 ^ w'.position ≤ 1 / 256 ^ w'.position := by
    calc (2 : ℚ) ^ 24 / 256 ^ w'.position ≤ (1009 / 1024) ^ n * w.width := hge.trans h
      _ ≤ (1009 / 1024) ^ n * 1 := mul_le_mul_of_nonneg_left hone (by positivity)
      _ ≤ 1 / 256 ^ w'.position := (mul_one _).trans_le hpow
  rw [div_le_div_iff_of_pos_right (by positivity)] at hle
  norm_num at hle

end RangeWriter
end CollectionDelta.Lzma
