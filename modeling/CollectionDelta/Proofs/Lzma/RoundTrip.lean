import CollectionDelta.Proofs.Lzma.Symbols

/-!
What is encoded is decoded to what it was.

* `Encoder.written`: the encoder when it has come to a position of the data.
* `Encoder.refines_last`: from there to the end marker, the interval gets much smaller, so that
  there are bytes left to read and symbols left to count.
* `Decoding.symbols_ends`: the decoder gives out the rest of the data and stops.
* `starting_eq`: it begins where the encoder begins.
* `whole_encode`: encoded data stand for the data.
-/

namespace CollectionDelta.Lzma

variable {data input : ByteArray} {i k limit : Nat}

namespace Encoder

/-! ## Positions of the data -/

def start : State := ⟨⟨head, 0, 0xFFFFFFFF, 0, 1⟩, Model.start literalContexts⟩

def written (data : ByteArray) (i : Nat) : State :=
  Nat.fold i (fun k _ s => literalAt data k s) start

def last (data : ByteArray) : State := marked (written data data.size) data.size

theorem written_succ (data : ByteArray) (i : Nat) :
    written data (i + 1) = literalAt data i (written data i) := Nat.fold_succ ..

theorem getElem!_start {place : Nat} (h : place < (Model.start literalContexts).size) :
    (Model.start literalContexts)[place]! = Model.half := by
  rw [getElem!_pos (Model.start literalContexts) place h]
  exact Array.getElem_replicate ..

theorem size_start : (Model.start literalContexts).size =
    Model.literals + Model.literalSize * literalContexts := Array.size_replicate

theorem sound_start : start.Sound where
  writer := ⟨⟨by decide, by decide, by decide⟩, by decide⟩
  size := size_start
  likely _ h := (getElem!_start h).symm ▸ RangeWriter.likely_half

theorem fresh_start : start.Fresh 0 Model.literals :=
  fun _ _ hlt => getElem!_start (Nat.lt_of_lt_of_le hlt (size_start ▸ Nat.le_add_right ..))

theorem sound_written (hi : i ≤ data.size) : (written data i).Sound := by
  induction i with
  | zero => exact sound_start
  | succ i ih =>
    rw [written_succ]
    exact (Decoding.decodes_symbol (ih (Nat.le_of_succ_le hi)) hi (Nat.le_refl _)).sound

theorem fresh_written (data : ByteArray) (i : Nat) :
    (written data i).Fresh Model.isRep Model.literals := by
  induction i with
  | zero => exact fresh_start.mono (Nat.zero_le _) (Nat.le_refl _)
  | succ i ih =>
    rw [written_succ]
    exact ih.literalAt data i

theorem width_written_le (hi : i ≤ data.size) :
    (written data i).writer.width ≤ (1009 / 1024) ^ i * start.writer.width := by
  induction i with
  | zero =>
    rw [pow_zero, one_mul]
    exact le_refl start.writer.width
  | succ i ih =>
    have hi' : i ≤ data.size := Nat.le_of_succ_le hi
    calc (written data (i + 1)).writer.width
        ≤ 1009 / 1024 * (written data i).writer.width :=
          written_succ data i ▸ Decoding.width_literalAt_le (sound_written hi') hi
      _ ≤ 1009 / 1024 * ((1009 / 1024) ^ i * start.writer.width) :=
          mul_le_mul_of_nonneg_left (ih hi') (by norm_num)
      _ = (1009 / 1024) ^ (i + 1) * start.writer.width := by rw [pow_succ', mul_assoc]

theorem refines_last (h : i + k = data.size) :
    (written data i).writer.Refines (last data).writer ∧
      (last data).writer.width ≤ 1 / 256 * (written data i).writer.width := by
  induction k generalizing i with
  | zero =>
    obtain rfl : i = data.size := h
    exact Decoding.refines_marked (sound_written (Nat.le_refl _)) data.size
  | succ k ih =>
    have hi : i < data.size := by omega
    obtain ⟨hrefines, hwidth⟩ := ih (i := i + 1) (by omega)
    have hsymbol := Decoding.decodes_symbol (sound_written (Nat.le_of_lt hi)) hi (Nat.le_refl _)
    rw [written_succ] at hrefines hwidth
    have hle := hsymbol.refines.width_le
    exact ⟨hsymbol.refines.trans hrefines, by linarith⟩

theorem position_lt_last (hi : i ≤ data.size) :
    (written data i).writer.position < (last data).writer.position := by
  obtain ⟨k, hk⟩ := Nat.exists_eq_add_of_le hi
  obtain ⟨hrefines, hwidth⟩ := refines_last hk.symm
  exact RangeWriter.position_lt hrefines.sound hwidth

/-- There are not more literals than bits. -/
theorem size_le_last (data : ByteArray) :
    data.size ≤ bitsPerByte * (last data).writer.position := by
  have hlast := (refines_last (Nat.add_zero data.size)).1
  have hone : start.writer.width ≤ 1 := by
    refine start.writer.width_lt.le.trans ?_
    rw [show start.writer.position = 18 from rfl]
    norm_num
  exact RangeWriter.le_bitsPerByte_mul hlast.sound hone
    (hlast.width_le.trans (width_written_le (Nat.le_refl _)))

end Encoder

namespace Decoding

/-! ## The decoder -/

theorem symbols_succ {fuel : Nat} {m m' : Machine} {last : Bool}
    (hgoes : (decide (m.code = 0) && decide (m.input.size ≤ m.at_)) = false)
    (hsymbol : symbol ⟨Encoder.properties, limit⟩ m = .ok (last, m')) :
    symbols (fuel + 1) ⟨Encoder.properties, limit⟩ m =
      if last then .ok ((), m') else symbols fuel ⟨Encoder.properties, limit⟩ m' := by
  change (if (decide (m.code = 0) && decide (m.input.size ≤ m.at_)) = true then
    (pure () : Decoding Unit) else symbol >>= fun last => if last then pure () else symbols fuel)
    ⟨Encoder.properties, limit⟩ m = _
  rw [hgoes, if_neg Bool.false_ne_true, Capping.Obeys.bind_apply, hsymbol]
  cases last <;> rfl

/-- Before the end marker there is more to read. -/
theorem goes_on (hend : Ends (Encoder.last data).writer input) (hi : i ≤ data.size) :
    (decide ((Encoder.written data i).writer.offset input = 0) &&
      decide (input.size ≤ (Encoder.written data i).writer.position)) = false := by
  have hmore := Nat.lt_of_lt_of_le (Encoder.position_lt_last hi) hend.within.position_le
  rw [decide_eq_false (Nat.not_le.2 hmore), Bool.and_false]

/-- From any position of the data on, the rest is given out, and the marker is found. -/
theorem symbols_ends (hend : Ends (Encoder.last data).writer input) (hlimit : data.size ≤ limit)
    (h : i + k = data.size) {fuel : Nat} (hfuel : k < fuel) : ∃ m,
      symbols fuel ⟨Encoder.properties, limit⟩
        (.follows input (Encoder.written data i) (firstBytes data i)) = .ok ((), m) ∧
      m.out = data := by
  induction k generalizing i fuel with
  | zero =>
    obtain ⟨fuel, rfl⟩ : ∃ f, fuel = f + 1 := ⟨fuel - 1, by omega⟩
    obtain rfl : i = data.size := h
    obtain ⟨m, hm, hout⟩ := symbol_ends (Encoder.sound_written (Nat.le_refl data.size))
      (Nat.le_refl _) hend
    rw [firstBytes_size] at hout
    exact ⟨m, symbols_succ (goes_on hend (Nat.le_refl _)) hm, hout⟩
  | succ k ih =>
    obtain ⟨fuel, rfl⟩ : ∃ f, fuel = f + 1 := ⟨fuel - 1, by omega⟩
    have hi : i < data.size := by omega
    have hsymbol := decodes_symbol (Encoder.sound_written (Nat.le_of_lt hi)) hi hlimit
    obtain ⟨m, hm, hout⟩ := ih (i := i + 1) (by omega) (Nat.lt_of_succ_lt_succ hfuel)
    have hwithin : (Encoder.literalAt data i (Encoder.written data i)).writer.Within input :=
      Encoder.written_succ data i ▸ (Encoder.refines_last (k := k) (by omega)).1.within input
        hend.within
    rw [Encoder.written_succ] at hm
    exact ⟨m, (symbols_succ (goes_on hend (Nat.le_of_lt hi)) (hsymbol.ok input hwithin)).trans hm,
      hout⟩

end Decoding

/-! ## The beginning -/

theorem littleEndian_eq {b b' : ByteArray} {begin width : Nat}
    (h : ∀ i < begin + width, b.get! i = b'.get! i) :
    littleEndian b begin width = littleEndian b' begin width := by
  unfold littleEndian
  refine congrArg (Nat.fold width · 0) (funext fun i => funext fun hi => funext fun n => ?_)
  rw [h (begin + i) (Nat.add_lt_add_left hi begin)]

/-- Only the head is looked at. -/
theorem readProperties_eq {b b' : ByteArray} (hsize : headSize ≤ b.size)
    (hsize' : headSize ≤ b'.size) (h : ∀ i < headSize, b.get! i = b'.get! i) :
    readProperties b = readProperties b' := by
  unfold headSize at h
  unfold readProperties
  rw [if_neg (Nat.not_lt.2 hsize), if_neg (Nat.not_lt.2 hsize'), h 0 (by decide),
    littleEndian_eq fun i hi => h i (by omega), littleEndian_eq fun i hi => h i (by omega)]

theorem prefixValue_add_four {n : Nat} (h : n + 4 ≤ input.size) :
    prefixValue input (n + 4) = prefixValue input n * 2 ^ 32 +
      Nat.fold 4 (fun i _ value => 256 * value + (input.get! (n + i)).toNat) 0 := by
  have hbyte : ∀ k < 4, prefixValue input (n + k + 1) =
      256 * prefixValue input (n + k) + (input.get! (n + k)).toNat :=
    fun k hk => prefixValue_succ (by omega)
  have h₀ := hbyte 0 (by decide)
  have h₁ := hbyte 1 (by decide)
  have h₂ := hbyte 2 (by decide)
  have h₃ := hbyte 3 (by decide)
  simp only [Nat.fold_succ, Nat.fold_zero, Nat.add_assoc, Nat.reduceAdd, Nat.add_zero] at *
  omega

theorem number_lt (input : ByteArray) (n : Nat) :
    Nat.fold 4 (fun i _ value => 256 * value + (input.get! (n + i)).toNat) 0 < 2 ^ 32 := by
  have h₀ := (input.get! n).toNat_lt
  have h₁ := (input.get! (n + 1)).toNat_lt
  have h₂ := (input.get! (n + 2)).toNat_lt
  have h₃ := (input.get! (n + 3)).toNat_lt
  simp only [Nat.fold_succ, Nat.fold_zero, Nat.add_zero]
  omega

/-- Data that lie in the first interval begin with the head and a byte that is zero. -/
theorem prefix_of_within (h : Encoder.start.writer.Within input) :
    input.data.toList.take (headSize + 1) = Encoder.head.data.toList ++ [0] ∧
      prefixValue input (headSize + 5) - Encoder.start.writer.value =
        Nat.fold 4 (fun i _ value => 256 * value + (input.get! (headSize + 1 + i)).toNat) 0 := by
  have hsize : headSize + 5 ≤ input.size := h.position_le
  have hvalue : Encoder.start.writer.value =
      Bytes.toNat (Encoder.head.data.toList ++ [0]) * 2 ^ 32 := rfl
  have hle := h.value_le
  have hlt := h.lt_add
  rw [show Encoder.start.writer.position = headSize + 1 + 4 from rfl, hvalue,
    prefixValue_add_four hsize] at hle hlt
  rw [show headSize + 5 = headSize + 1 + 4 from rfl, hvalue, prefixValue_add_four hsize]
  have hrest := number_lt input (headSize + 1)
  have hrange : Encoder.start.writer.range.toNat = 2 ^ 32 - 1 := rfl
  have hhead : prefixValue input (headSize + 1) =
      Bytes.toNat (Encoder.head.data.toList ++ [0]) := by omega
  refine ⟨?_, by rw [hhead, Nat.add_sub_cancel_left]⟩
  have hlength : (input.data.toList.take (headSize + 1)).length = headSize + 1 := by
    rw [List.length_take, toList_length]
    omega
  rw [← Bytes.ofNat_toNat hlength, ← Bytes.ofNat_toNat (w := headSize + 1)
    (b := Encoder.head.data.toList ++ [0]) rfl]
  exact congrArg (Bytes.ofNat (headSize + 1)) hhead

theorem readProperties_within (h : Encoder.start.writer.Within input) :
    readProperties input = .ok Encoder.properties := by
  have hsize : headSize + 5 ≤ input.size := h.position_le
  have hfirst : firstBytes input headSize = Encoder.head := by
    have htake := congrArg (List.take headSize) (prefix_of_within h).1
    rw [List.take_take] at htake
    exact ByteArray.ext (Array.toList_inj.1 htake)
  have hbyte : ∀ i < headSize, input.get! i = Encoder.head.get! i :=
    fun i hi => hfirst ▸ (get!_firstBytes input hi).symm
  have hhead : headSize ≤ Encoder.head.size := Nat.le_refl headSize
  rw [readProperties_eq (Nat.le_of_add_right_le hsize) hhead hbyte]
  rfl

theorem starting_within (h : Encoder.start.writer.Within input) :
    Machine.starting input Encoder.properties = .follows input Encoder.start .empty := by
  have hcode : UInt32.ofNat (Nat.fold 4 (fun i _ n =>
      256 * n + (input.get! (headSize + 1 + i)).toNat) 0) = Encoder.start.writer.offset input :=
    congrArg UInt32.ofNat (prefix_of_within h).2.symm
  rw [Machine.starting, hcode]
  rfl

/-! ## The whole -/

theorem writer_bit_start {place : Nat} (h : place < Model.literals) :
    (Encoder.bit Encoder.start place true).writer = Encoder.start.writer.bit Model.half true :=
  Encoder.writer_bit (Encoder.fresh_start place (Nat.zero_le _) h) true

/-- The position that is counted where there are no data makes no difference. -/
theorem endMarker_max (data : ByteArray) :
    Encoder.endMarker (Encoder.written data data.size) (max 1 data.size) =
      Encoder.endMarker (Encoder.written data data.size) data.size := by
  rcases Nat.eq_zero_or_pos data.size with hzero | hpos
  · have hone : (Encoder.bit Encoder.start (Model.isMatch + 1 % Encoder.positionStates)
        true).writer = _ := writer_bit_start (by decide)
    have hnone : (Encoder.bit Encoder.start (Model.isMatch + 0 % Encoder.positionStates)
        true).writer = _ := writer_bit_start (by decide)
    have hstart : Encoder.written data 0 = Encoder.start := rfl
    rw [hzero, hstart, Encoder.endMarker, Encoder.endMarker, Nat.max_eq_left (Nat.zero_le 1), hone,
      hnone]
  · rw [Nat.max_eq_right hpos]

theorem encode_eq (data : ByteArray) : encode data = (Encoder.last data).writer.finish.out := by
  have hmarker := Encoder.writer_marked (Encoder.fresh_written data data.size) data.size
  rw [Encoder.last, hmarker, ← endMarker_max]
  rfl

theorem ends_encode (data : ByteArray) :
    Decoding.Ends (Encoder.last data).writer (encode data) := by
  have hsound := (Encoder.refines_last (Nat.add_zero data.size)).1.sound
  have hpos : 0 < (Encoder.last data).writer.range.toNat :=
    Nat.lt_of_lt_of_le (by decide) hsound.range_ge
  obtain ⟨hsize, hvalue⟩ := RangeWriter.finish_spec hsound.room hpos
  rw [← encode_eq] at hsize hvalue
  have hnumber : prefixValue (encode data) (Encoder.last data).writer.position =
      (Encoder.last data).writer.value := by
    rw [← hsize, ← toList_length, prefixValue, List.take_length, hvalue]
  refine ⟨⟨hsize.ge, hnumber.ge, ?_⟩, ?_, hsize.le⟩
  · rw [hnumber]
    exact Nat.lt_add_of_pos_right hpos
  · rw [RangeWriter.offset, hnumber, Nat.sub_self]
    rfl

/-- Encoded data stand for the data. -/
theorem whole_encode (data : ByteArray) : Whole (encode data) data := by
  have hends := ends_encode data
  have hwithin : Encoder.start.writer.Within (encode data) :=
    (Encoder.refines_last (Nat.zero_add data.size)).1.within _ hends.within
  have hfuel : data.size < bitsPerByte * ((encode data).size + 8) := by
    have hbits := Encoder.size_le_last data
    have hsize := Nat.mul_le_mul_left bitsPerByte hends.within.position_le
    have hpos : 0 < bitsPerByte := by decide
    rw [Nat.mul_add]
    omega
  obtain ⟨m, hm, hout⟩ := Decoding.symbols_ends hends (Nat.le_refl data.size)
    (Nat.zero_add data.size) hfuel
  rw [firstBytes_zero] at hm
  have hstarting := starting_within hwithin
  refine ⟨data.size, (decode_of_ended (readProperties_within hwithin) hwithin.position_le
    (hstarting ▸ hm)).trans ?_⟩
  rw [hout, if_neg (Nat.lt_irrefl _)]

end CollectionDelta.Lzma
