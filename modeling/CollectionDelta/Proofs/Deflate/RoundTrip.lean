import CollectionDelta.Proofs.Bytes
import CollectionDelta.Proofs.Checksum
import CollectionDelta.Proofs.Deflate.FixedBlock

/-!
What is compressed is inflated to what it was.

* `reads_bytesBigEndian`, `reads_storedBytes`: whole bytes are read back.
* `reads_storedBlocks`: data as they are, in blocks.
* `Body`: what stands between the head and the checksum; `body_compress` says that there is one at
  every level, and `Body.reads_frame` that it is read with its frame.
* `whole_compress`: compressed data stand for the data, at every level.
-/

namespace CollectionDelta.Deflate

variable {data : ByteArray} {limit i used : Nat} {w : Window}

/-! ## Bytes -/

namespace Inflater

theorem reads_byte (x : UInt8) : Reads limit (bits 8) w (bitsOf [x]) x.toNat w.out := by
  have hbits : bitsOf [x] = lowBits 8 x.toNat := by simp [bitsOf]
  rw [hbits]
  exact reads_bits x.toNat_lt

theorem reads_bytesBigEndian (b : Bytes) (value : Nat) :
    Reads limit (bytesBigEndian b.length value) w (bitsOf b)
      (b.foldl (fun n x => 256 * n + x.toNat) value) w.out := by
  induction b generalizing value w with
  | nil => exact .pure value
  | cons x b ih =>
    rw [← List.singleton_append, bitsOf_append]
    exact (reads_byte x).bind (ih _)

/-- Two bytes, the lower one first. -/
theorem reads_sixteen {n : Nat} (h : n < 65536) : Reads limit (bits 16) w
    (bitsOf [UInt8.ofNat (n % 256), UInt8.ofNat (n / 256)]) n w.out := by
  have hbits : bitsOf [UInt8.ofNat (n % 256), UInt8.ofNat (n / 256)] = lowBits (8 + 8) n := by
    have hlow := lowBits_add_mul 8 (n % 256) (n / 256)
    rw [show n % 256 + 2 ^ 8 * (n / 256) = n from Nat.mod_add_div n 256] at hlow
    have hhigh : n / 256 % 256 = n / 2 ^ 8 := Nat.mod_eq_of_lt (by omega)
    rw [lowBits_split, hlow, ← hhigh]
    simp [bitsOf]
  rw [hbits]
  exact reads_bits h

theorem reads_storedBytes {length : Nat} (h : i + length ≤ data.size) (hlimit : data.size < limit) :
    Reads limit (storedBytes length) ⟨used, firstBytes data i⟩
      (bitsOf ((data.data.toList.drop i).take length)) () (firstBytes data (i + length)) := by
  induction length generalizing i used with
  | zero => exact .pure ()
  | succ length ih =>
    have hlt : i < data.data.toList.length := by rw [toList_length]; omega
    have hget : data.data.toList[i] = data.get! i := by
      rw [← Option.some_inj, ← List.getElem?_eq_getElem hlt, getElem?_toList hlt]
    have hsize : (firstBytes data i).size = i := size_firstBytes (by omega)
    rw [List.drop_eq_getElem_cons hlt, List.take_succ_cons, hget, ← List.singleton_append,
      bitsOf_append]
    refine (reads_byte (data.get! i)).bind ?_
    refine (reads_emit (by dsimp only; omega)).bind_nil ?_
    dsimp only
    rw [UInt8.ofNat_toNat, push_firstBytes (by omega),
      show i + (length + 1) = i + 1 + length by omega]
    exact ih (by omega)

end Inflater

/-! ## Data as they are -/

theorem toList_foldl_push (b : Bytes) (out : ByteArray) :
    (b.foldl ByteArray.push out).data.toList = out.data.toList ++ b := by
  induction b generalizing out with
  | nil => simp
  | cons x b ih => rw [List.foldl_cons, ih]; simp

theorem toList_pushSlice {length : Nat} (out : ByteArray) (h : i + length ≤ data.size) :
    (pushSlice out data i length).data.toList =
      out.data.toList ++ (data.data.toList.drop i).take length := by
  induction length with
  | zero => simp [pushSlice]
  | succ length ih =>
    have hget : data.data.toList[i + length]? = some (data.get! (i + length)) :=
      getElem?_toList (by omega)
    have hbefore := ih (by omega)
    unfold pushSlice at hbefore ⊢
    rw [Nat.fold_succ, List.take_add_one, List.getElem?_drop, hget]
    simp [hbefore]

/-- The head of a block that holds some bytes as they are. -/
def storedHead (last : Bool) (length : Nat) : Bytes :=
  [if last then 1 else 0, UInt8.ofNat (length % 256), UInt8.ofNat (length / 256),
    UInt8.ofNat ((maxStored - length) % 256), UInt8.ofNat ((maxStored - length) / 256)]

theorem length_storedHead (last : Bool) (length : Nat) : (storedHead last length).length = 5 := rfl

namespace Inflater

theorem reads_stored {length : Nat} (h : i + length ≤ data.size) (hlength : length ≤ maxStored)
    (hlimit : data.size < limit) {n : Nat} (hn : n < 8) (hused : (used + n) % 8 = 0) :
    Reads limit stored ⟨used, firstBytes data i⟩
      (lowBits n 0 ++ (bitsOf [UInt8.ofNat (length % 256), UInt8.ofNat (length / 256)] ++
        (bitsOf [UInt8.ofNat ((maxStored - length) % 256),
          UInt8.ofNat ((maxStored - length) / 256)] ++
          bitsOf ((data.data.toList.drop i).take length)))) () (firstBytes data (i + length)) := by
  unfold maxStored at *
  refine (reads_align hn hused).bind ?_
  refine (reads_sixteen (by omega)).bind ?_
  refine (reads_sixteen (by omega)).bind ?_
  exact .unless (by omega) (reads_storedBytes h hlimit)

theorem reads_storedBlock {length : Nat} (h : i + length ≤ data.size) (hlength : length ≤ maxStored)
    (hlimit : data.size < limit) (last : Bool) (fuel : Nat) (hused : used % 8 = 0) :
    Reads limit (block fuel) ⟨used, firstBytes data i⟩
      (bitsOf (storedHead last length ++ (data.data.toList.drop i).take length)) last
      (firstBytes data (i + length)) := by
  have hfirst : bitsOf [if last then 1 else 0] =
      (if last then 1 else 0) :: (lowBits 2 0 ++ lowBits 5 0) := by
    cases last <;> rfl
  have hhead : storedHead last length = [if last then 1 else 0] ++
      ([UInt8.ofNat (length % 256), UInt8.ofNat (length / 256)] ++
        [UInt8.ofNat ((maxStored - length) % 256), UInt8.ofNat ((maxStored - length) / 256)]) := rfl
  have hlast : decide ((if last then 1 else 0 : Nat) = 1) = last := by cases last <;> rfl
  have hkind : (used + 1 + 2 + 5) % 8 = 0 := by omega
  rw [hhead, bitsOf_append, bitsOf_append, bitsOf_append, hfirst, List.cons_append,
    List.cons_append, List.append_assoc, List.append_assoc, List.append_assoc]
  refine (reads_bit _).bind_cons ((reads_bits (Nat.two_pow_pos 2)).bind ?_)
  rw [if_pos rfl]
  exact Reads.bind_pure (a := ()) (reads_stored h hlength hlimit (by decide) hkind)
    (congrArg Pure.pure hlast)

end Inflater

/-- A block of data as they are, and more blocks unless it is the last one. -/
theorem storedBlocks_succ (out : ByteArray) (fuel : Nat) : storedBlocks data out i (fuel + 1) =
    let length := min maxStored (data.size - i)
    let block := pushSlice ((storedHead (data.size ≤ i + length) length).foldl ByteArray.push out)
      data i length
    if data.size ≤ i + length then block else storedBlocks data block (i + length) fuel := by
  have hhead : ∀ length, storedHead (data.size ≤ i + length) length =
      [if data.size ≤ i + length then 1 else 0, length % 256, length / 256,
        (maxStored - length) % 256, (maxStored - length) / 256].map UInt8.ofNat := by
    intro length
    by_cases hlast : data.size ≤ i + length <;> simp [storedHead, hlast]
  simp only [hhead, List.foldl_map]
  rfl

theorem reads_storedBlocks (out : ByteArray) {fuel : Nat} (hi : i ≤ data.size)
    (hfuel : data.size - i < fuel) : ∃ body : Bytes,
      (storedBlocks data out i fuel).data.toList = out.data.toList ++ body ∧
      ∀ {limit m n used : Nat}, data.size < limit → used % 8 = 0 → (bitsOf body).length ≤ n →
        Inflater.Reads limit (Inflater.blocks m n) ⟨used, firstBytes data i⟩ (bitsOf body) ()
          data := by
  induction fuel generalizing out i with
  | zero => exact absurd hfuel (Nat.not_lt_zero _)
  | succ fuel ih =>
    rw [storedBlocks_succ]
    dsimp only
    generalize hlength : min maxStored (data.size - i) = length
    have hmax : length ≤ maxStored := hlength ▸ Nat.min_le_left ..
    have hle : length ≤ data.size - i := hlength ▸ Nat.min_le_right ..
    have hinside : i + length ≤ data.size := by omega
    generalize hblock : pushSlice ((storedHead (data.size ≤ i + length) length).foldl
      ByteArray.push out) data i length = block
    have hbytes : block.data.toList = out.data.toList ++
        (storedHead (data.size ≤ i + length) length ++
          (data.data.toList.drop i).take length) := by
      rw [← hblock, toList_pushSlice _ hinside, toList_foldl_push, List.append_assoc]
    split
    · next hlast =>
      refine ⟨_, hbytes, fun {limit m n used} hlimit hused hn => ?_⟩
      obtain ⟨n, rfl⟩ : ∃ k, n = k + 1 := by
        rw [length_bitsOf, List.length_append, length_storedHead] at hn
        exact ⟨n - 1, by omega⟩
      have hend : i + length = data.size := by omega
      have hread := Inflater.reads_storedBlock hinside hmax hlimit (data.size ≤ i + length) m hused
      rw [hend, firstBytes_size] at hread
      rw [hend]
      exact hread.bind_pure (by rw [if_pos (decide_eq_true (Nat.le_refl _))])
    · next hlast =>
      have hpos : 0 < length := by
        unfold maxStored at hlength
        omega
      obtain ⟨body, hmore, hreads⟩ := ih block hinside (by omega)
      refine ⟨_, by rw [hmore, hbytes, List.append_assoc],
        fun {limit m n used} hlimit hused hn => ?_⟩
      rw [bitsOf_append] at hn ⊢
      rw [List.length_append, length_bitsOf, List.length_append, length_storedHead] at hn
      obtain ⟨n, rfl⟩ : ∃ k, n = k + 1 := ⟨n - 1, by omega⟩
      refine (Inflater.reads_storedBlock hinside hmax hlimit (data.size ≤ i + length) m
        hused).bind ?_
      rw [if_neg (by rw [decide_eq_true_eq]; exact hlast)]
      refine hreads hlimit ?_ (by omega)
      rw [length_bitsOf]
      dsimp only
      omega

/-! ## The frame -/

/-- The code of blocks that stand for the data, where they begin after the head. -/
def Blocks (data : ByteArray) (code : List Nat) : Prop :=
  ∀ {limit m : Nat}, data.size < limit → code.length ≤ m →
    Inflater.Reads limit (Inflater.blocks m m) ⟨16, .empty⟩ code () data

theorem blocks_fixed {code : List Nat} (h : Spells data 0 code) :
    Blocks data (lowBits 1 1 ++ (lowBits 2 1 ++ code)) := by
  intro limit m hlimit hm
  rw [List.length_append, List.length_append, length_lowBits] at hm
  obtain ⟨m, rfl⟩ : ∃ k, m = k + 1 := ⟨m - 1, by omega⟩
  have hfuel : code.length ≤ m + 1 := by omega
  have hsymbols : ∀ used, Inflater.Reads limit (Inflater.symbols Inflater.fixedCodes.1
      Inflater.fixedCodes.2 (m + 1)) ⟨used, .empty⟩ code () data :=
    fun _ => Inflater.reads_symbols h hlimit hfuel
  have hblock : Inflater.Reads limit (Inflater.block (m + 1)) ⟨16, .empty⟩
      (lowBits 1 1 ++ (lowBits 2 1 ++ code)) true data := by
    refine (Inflater.reads_bit 1).bind_cons ?_
    refine (Inflater.reads_bits (n := 2) (v := 1) (by decide)).bind ?_
    rw [if_neg (by decide), if_pos rfl]
    exact (hsymbols _).bind_pure rfl
  exact hblock.bind_pure rfl

/-- What is written after the head, up to the checksum, are blocks that stand for the data, and a
byte that is filled up. -/
theorem blocks_compress (level : Nat) (data : ByteArray) : ∃ code n, Blocks data code ∧ n < 8 ∧
    bitsOf (compress level data).data.toList = bitsOf [0x78, effort level] ++
      (code ++ (lowBits n 0 ++ bitsOf (Bytes.ofNat 4 (adler32 data.data.toList)))) := by
  have hhead : ((ByteArray.empty.push 0x78).push (effort level)).data.toList =
      [0x78, effort level] := by simp
  have hsum : (data.foldl Adler32.State.add {}).value = adler32 data.data.toList := by
    rw [foldl_toList, adler32]
  unfold compress
  dsimp only
  rw [toList_foldl_push, bitsOf_append, hsum]
  split
  · have hfuel : data.size - 0 < data.size + 1 := Nat.lt_succ_self _
    obtain ⟨body, hbytes, hreads⟩ := reads_storedBlocks
      ((ByteArray.empty.push 0x78).push (effort level)) (Nat.zero_le data.size) hfuel
    refine ⟨bitsOf body, 0, fun hlimit hm => hreads hlimit rfl hm, by decide, ?_⟩
    rw [hbytes, hhead, bitsOf_append, List.append_assoc]
    rfl
  · have hw : BitWriter.Sound ⟨(ByteArray.empty.push 0x78).push (effort level), 0, 0⟩ :=
      ⟨Nat.one_pos, Nat.succ_pos 7⟩
    obtain ⟨code, n, hspells, hn, hwrites, hout⟩ := BitWriter.writes_fixedBlock hw data
    refine ⟨lowBits 1 1 ++ (lowBits 2 1 ++ code), n, blocks_fixed hspells, hn, ?_⟩
    rw [← hout, hwrites.written, BitWriter.written, hhead]
    simp [lowBits, List.append_assoc]

theorem effort_cases (level : Nat) : effort level = 0x01 ∨ effort level = 0x5E ∨
    effort level = 0x9C ∨ effort level = 0xDA := by
  unfold effort
  split_ifs <;> simp

namespace Inflater

theorem reads_header (level : Nat) :
    Reads limit header w (bitsOf [0x78, effort level]) () w.out := by
  have hcheck : ¬ ((256 * 0x78 + (effort level).toNat) % 31 ≠ 0 ∨ 0x78 % 16 ≠ 8 ∨
      7 < 0x78 / 16) := by
    rcases effort_cases level with h | h | h | h <;> rw [h] <;> decide
  have hpreset : ¬ (effort level).toNat / 32 % 2 = 1 := by
    rcases effort_cases level with h | h | h | h <;> rw [h] <;> decide
  rw [show [0x78, effort level] = [0x78] ++ [effort level] from rfl, bitsOf_append]
  refine (reads_byte 0x78).bind ((reads_byte (effort level)).bind_done (.unless hcheck ?_))
  rw [if_neg hpreset]
  exact .pure ()

/-- The checksum at the end is that of the output. -/
theorem reads_frame {code : List Nat} (hcode : Blocks data code) {n : Nat} (hn : n < 8)
    (heven : (code.length + n) % 8 = 0) (level : Nat) (hlimit : data.size < limit) {m : Nat}
    (hm : code.length ≤ m) :
    Reads limit (frame m) {} (bitsOf [0x78, effort level] ++
      (code ++ (lowBits n 0 ++ bitsOf (Bytes.ofNat 4 (adler32 data.data.toList))))) () data := by
  have hsum : (Bytes.ofNat 4 (adler32 data.data.toList)).foldl (fun n x => 256 * n + x.toNat) 0 =
      (data.foldl Adler32.State.add {}).value := by
    rw [foldl_toList]
    exact Bytes.toNat_ofNat (adler32_lt _)
  refine (reads_header level).bind ((hcode hlimit hm).bind ?_)
  refine (reads_align hn ?_).bind ?_
  · dsimp only
    omega
  · refine (reads_bytesBigEndian (Bytes.ofNat 4 (adler32 data.data.toList)) 0).bind_done ?_
    refine reads_get.bind_nil ?_
    dsimp only
    rw [if_neg (not_not.2 hsum)]
    exact .pure ()

end Inflater

/-- Compressed data stand for the data. -/
theorem whole_compress (level : Nat) (data : ByteArray) : Whole (compress level data) data := by
  obtain ⟨code, n, hcode, hn, hbits⟩ := blocks_compress level data
  have hlen := congrArg List.length hbits
  simp only [List.length_append, length_bitsOf, length_lowBits, Bytes.length_ofNat,
    toList_length, List.length_cons, List.length_nil] at hlen
  have hread := Inflater.reads_frame hcode hn (by omega) level (Nat.lt_succ_self data.size)
    (m := 8 * (compress level data).size + 1) (by omega)
  exact ⟨data.size + 1, Nat.lt_succ_self _, inflate_of_ended (hread (compress level data)
    ⟨[], by rw [List.append_nil, List.drop_zero, hbits]⟩)⟩

end CollectionDelta.Deflate
