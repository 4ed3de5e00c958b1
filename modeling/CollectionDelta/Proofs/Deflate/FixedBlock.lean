import CollectionDelta.Proofs.Deflate.Canonical
import CollectionDelta.Proofs.FirstBytes

/-!
Blocks in the fixed codes.

* `Repeats`: a stretch of the data is the same as one some bytes before.
* `Spells`: a code stands for the data from a position to their end, in literals and repetitions.
* `Inflater.reads_symbols`: where a reading is at the position, it gives out the rest of the data.
* `spells_fixedFrom`: what is written stands for the data.
-/

namespace CollectionDelta.Deflate

/-! ## Entries of tables -/

/-- The entry that is found is not above the value, and the next one is. -/
theorem lastNotAbove_found {table : Array Nat} {value : Nat} (h : table[0]! ≤ value) :
    table[lastNotAbove table value]! ≤ value ∧
      ∀ k < table.size, lastNotAbove table value < k → value < table[k]! := by
  have hfold : ∀ n : Nat, table[n.fold (fun i _ best => if table[i]! ≤ value then i else best) 0]! ≤
      value ∧ ∀ k < n, n.fold (fun i _ best => if table[i]! ≤ value then i else best) 0 < k →
        value < table[k]! := by
    intro n
    induction n with
    | zero => exact ⟨h, fun _ hk => absurd hk (Nat.not_lt_zero _)⟩
    | succ n ih =>
      rw [Nat.fold_succ]
      split
      · next hn => exact ⟨hn, fun k hk hlt => absurd hlt (Nat.not_lt.2 (Nat.lt_succ_iff.1 hk))⟩
      · next hn =>
        refine ⟨ih.1, fun k hk hlt => ?_⟩
        rcases Nat.lt_succ_iff_lt_or_eq.1 hk with hk | rfl
        · exact ih.2 k hk hlt
        · exact Nat.not_le.1 hn
  exact hfold table.size

theorem lastNotAbove_lt (table : Array Nat) (h : 0 < table.size) (value : Nat) :
    lastNotAbove table value < table.size := by
  have hfold : ∀ n : Nat, n ≤ table.size →
      n.fold (fun i _ best => if table[i]! ≤ value then i else best) 0 < table.size := by
    intro n hn
    induction n with
    | zero => exact h
    | succ n ih =>
      rw [Nat.fold_succ]
      split
      · exact hn
      · exact ih (Nat.le_of_succ_le hn)
  exact hfold table.size (Nat.le_refl _)

/-- In a table that leaves no gaps, what a value has above its entry fits in the entry's extra
bits. -/
theorem lastNotAbove_rest {table extra : Array Nat} {value : Nat} (h : table[0]! ≤ value)
    (hsteps : ∀ k < table.size, k + 1 < table.size → table[k + 1]! ≤ table[k]! + 2 ^ extra[k]!)
    (hlast : value < table[table.size - 1]! + 2 ^ extra[table.size - 1]!) (hsize : 0 < table.size) :
    table[lastNotAbove table value]! ≤ value ∧
      value - table[lastNotAbove table value]! < 2 ^ extra[lastNotAbove table value]! := by
  obtain ⟨hle, hnext⟩ := lastNotAbove_found h
  have hlt := lastNotAbove_lt table hsize value
  refine ⟨hle, Nat.sub_lt_left_of_lt_add hle ?_⟩
  by_cases hk : lastNotAbove table value + 1 < table.size
  · exact Nat.lt_of_lt_of_le (hnext _ hk (Nat.lt_succ_self _)) (hsteps _ hlt hk)
  · have heq : lastNotAbove table value = table.size - 1 := by omega
    rwa [heq]

theorem length_rest {length : Nat} (h : minLength ≤ length) (h' : length ≤ maxLength) :
    lengthBase[lastNotAbove lengthBase length]! ≤ length ∧
      length - lengthBase[lastNotAbove lengthBase length]! <
        2 ^ lengthExtra[lastNotAbove lengthBase length]! := by
  refine lastNotAbove_rest h (by decide) (Nat.lt_of_le_of_lt h' ?_) (by decide)
  decide

theorem distance_rest {distance : Nat} (h : 1 ≤ distance) (h' : distance ≤ maxDistance) :
    distanceBase[lastNotAbove distanceBase distance]! ≤ distance ∧
      distance - distanceBase[lastNotAbove distanceBase distance]! <
        2 ^ distanceExtra[lastNotAbove distanceBase distance]! := by
  refine lastNotAbove_rest h (by decide) (Nat.lt_of_le_of_lt h' ?_) (by decide)
  decide

/-- No entry has more than thirteen extra bits. -/
theorem extra_le : (∀ k < lengthBase.size, lengthExtra[k]! ≤ 13) ∧
    ∀ k < distanceBase.size, distanceExtra[k]! ≤ 13 := by
  decide

/-! ## Codes that stand for data -/

/-- From the position on, some bytes are the same as those a distance before. -/
structure Repeats (data : ByteArray) (i length distance : Nat) : Prop where
  length_ge : minLength ≤ length
  length_le : length ≤ maxLength
  distance_pos : 1 ≤ distance
  distance_le : distance ≤ maxDistance
  before : distance ≤ i
  inside : i + length ≤ data.size
  same : ∀ k < length, data.get! (i - distance + k) = data.get! (i + k)

def distanceWord (distance : Nat) : List Nat :=
  let d := lastNotAbove distanceBase distance
  highBits 5 d ++ lowBits distanceExtra[d]! (distance - distanceBase[d]!)

def matchCode (length distance : Nat) : List Nat :=
  let l := lastNotAbove lengthBase length
  fixedWord (257 + l) ++
    (lowBits lengthExtra[l]! (length - lengthBase[l]!) ++ distanceWord distance)

inductive Spells (data : ByteArray) : Nat → List Nat → Prop
  | done : Spells data data.size (fixedWord endOfBlock)
  | literal {i : Nat} {code : List Nat} : i < data.size → Spells data (i + 1) code →
    Spells data i (fixedWord (data.get! i).toNat ++ code)
  | again {i length distance : Nat} {code : List Nat} : Repeats data i length distance →
    Spells data (i + length) code → Spells data i (matchCode length distance ++ code)

/-! ## Reading -/

theorem length_fixedWord_pos (s : Nat) : 0 < (fixedWord s).length := by
  unfold fixedWord
  split_ifs <;> simp

namespace Inflater

variable {data : ByteArray} {limit i length distance used : Nat}

theorem reads_copy (hd : 1 ≤ distance) (hi : distance ≤ i) (hl : i + length ≤ data.size)
    (hlimit : data.size < limit)
    (hsame : ∀ k < length, data.get! (i - distance + k) = data.get! (i + k)) :
    Reads limit (copy distance length) ⟨used, firstBytes data i⟩ [] ()
      (firstBytes data (i + length)) := by
  induction length generalizing i with
  | zero => exact .pure ()
  | succ length ih =>
    have hsize : (firstBytes data i).size = i := size_firstBytes (by omega)
    have hbyte : (firstBytes data i).get! ((firstBytes data i).size - distance) = data.get! i := by
      rw [hsize, get!_firstBytes data (by omega)]
      exact hsame 0 (Nat.succ_pos _)
    have hpush : (firstBytes data i).push (data.get! i) = firstBytes data (i + 1) :=
      push_firstBytes (by omega)
    refine reads_get.bind_nil ?_
    dsimp only
    rw [hbyte]
    refine (reads_emit (by dsimp only; omega)).bind_nil ?_
    dsimp only
    rw [hpush, show i + (length + 1) = i + 1 + length by omega]
    refine ih (by omega) (by omega) fun k hk => ?_
    have hnext := hsame (k + 1) (Nat.succ_lt_succ hk)
    rwa [show i - distance + (k + 1) = i + 1 - distance + k by omega,
      show i + (k + 1) = i + 1 + k by omega] at hnext

theorem reads_match (h : Repeats data i length distance) (hlimit : data.size < limit) :
    Reads limit (match_ fixedCodes.2 (257 + lastNotAbove lengthBase length))
      ⟨used, firstBytes data i⟩
      (lowBits lengthExtra[lastNotAbove lengthBase length]!
        (length - lengthBase[lastNotAbove lengthBase length]!) ++ distanceWord distance) ()
      (firstBytes data (i + length)) := by
  obtain ⟨hlength, hlengthRest⟩ := length_rest h.length_ge h.length_le
  obtain ⟨hdistance, hdistanceRest⟩ := distance_rest h.distance_pos h.distance_le
  have hl := lastNotAbove_lt lengthBase (by decide) length
  have hd : lastNotAbove distanceBase distance < 30 :=
    lastNotAbove_lt distanceBase (by decide) distance
  have hsize : (firstBytes data i).size = i :=
    size_firstBytes (Nat.le_trans (Nat.le_add_right ..) h.inside)
  have hcopy : ∀ used, Reads limit (copy distance length) ⟨used, firstBytes data i⟩ [] ()
      (firstBytes data (i + length)) :=
    fun _ => reads_copy h.distance_pos h.before h.inside hlimit h.same
  unfold match_
  dsimp only
  rw [Nat.add_sub_cancel_left]
  refine .unless (Nat.not_le.2 hl) ((reads_bits hlengthRest).bind ?_)
  refine (reads_fixedDistance hd).bind ?_
  dsimp only
  refine .unless (Nat.not_le.2 hd) ?_
  refine (reads_bits hdistanceRest).bind_done ?_
  refine reads_get.bind_nil (.unless ?_ ?_)
  · dsimp only
    rw [hsize, Nat.add_sub_cancel' hdistance]
    exact Nat.not_lt.2 h.before
  · rw [Nat.add_sub_cancel' hlength, Nat.add_sub_cancel' hdistance]
    exact hcopy _

/-- Each symbol takes a bit at least, so the bits of the code are fuel enough. -/
theorem reads_symbols {code : List Nat} (h : Spells data i code) (hlimit : data.size < limit)
    {fuel : Nat} (hfuel : code.length ≤ fuel) :
    Reads limit (symbols fixedCodes.1 fixedCodes.2 fuel) ⟨used, firstBytes data i⟩ code ()
      data := by
  induction h generalizing fuel used with
  | done =>
    have hpos := length_fixedWord_pos endOfBlock
    obtain ⟨fuel, rfl⟩ : ∃ m, fuel = m + 1 := ⟨fuel - 1, by omega⟩
    rw [firstBytes_size]
    exact (reads_fixedWord (s := endOfBlock) (by decide)).bind_pure rfl
  | @literal i code hi _ ih =>
    have hpos := length_fixedWord_pos (data.get! i).toNat
    rw [List.length_append] at hfuel
    obtain ⟨fuel, rfl⟩ : ∃ m, fuel = m + 1 := ⟨fuel - 1, by omega⟩
    have hbyte : (data.get! i).toNat < endOfBlock := (data.get! i).toNat_lt
    have hsize := size_firstBytes (Nat.le_of_lt hi)
    have hpush := push_firstBytes hi
    refine (reads_fixedWord (Nat.lt_trans hbyte (by decide))).bind ?_
    dsimp only
    rw [if_pos hbyte, UInt8.ofNat_toNat]
    refine (reads_emit (by dsimp only; omega)).bind_nil ?_
    dsimp only
    rw [hpush]
    exact ih (by omega)
  | @again i length distance code hrepeats _ ih =>
    have hpos := length_fixedWord_pos (257 + lastNotAbove lengthBase length)
    rw [List.length_append, matchCode, List.length_append] at hfuel
    obtain ⟨fuel, rfl⟩ : ∃ m, fuel = m + 1 := ⟨fuel - 1, by omega⟩
    have hl : lastNotAbove lengthBase length < 29 :=
      lastNotAbove_lt lengthBase (by decide) length
    rw [matchCode, List.append_assoc]
    refine (reads_fixedWord (by omega)).bind ?_
    dsimp only
    rw [if_neg (by unfold endOfBlock; omega), if_neg (by unfold endOfBlock; omega)]
    exact (reads_match hrepeats hlimit).bind (ih (by omega))

end Inflater

/-! ## Writing -/

theorem BitWriter.writes_fixedMatch {w : BitWriter} (h : w.Sound) {length distance : Nat}
    (hl : minLength ≤ length) (hl' : length ≤ maxLength) (hd : 1 ≤ distance)
    (hd' : distance ≤ maxDistance) :
    w.Writes (matchCode length distance) (fixedMatch w length distance) := by
  have hlengthExtra := extra_le.1 _ (lastNotAbove_lt lengthBase (by decide) length)
  have hdistanceExtra :=
    extra_le.2 _ (lastNotAbove_lt distanceBase (by decide) distance)
  have hsymbol := writes_fixedSymbol h (257 + lastNotAbove lengthBase length)
  have hlength := writes_bits hsymbol.sound (Nat.le_trans hlengthExtra (by decide))
    (length_rest hl hl').2
  have hword := writes_word hlength.sound (n := 5) (by decide) (lastNotAbove distanceBase distance)
  have hdistance := writes_bits hword.sound (Nat.le_trans hdistanceExtra (by decide))
    (distance_rest hd hd').2
  exact hsymbol.trans (hlength.trans (hword.trans hdistance))

variable {data : ByteArray} {seen : Array Nat} {i : Nat}

theorem common_spec (data : ByteArray) (i j limit : Nat) : common data i j limit ≤ limit ∧
    ∀ k < common data i j limit, data.get! (i + k) = data.get! (j + k) := by
  induction limit generalizing i j with
  | zero => exact ⟨Nat.le_refl _, fun k hk => absurd hk (Nat.not_lt_zero k)⟩
  | succ limit ih =>
    unfold common
    split
    · next heq =>
      refine ⟨Nat.succ_le_succ (ih _ _).1, fun k hk => ?_⟩
      cases k with
      | zero => exact heq
      | succ k =>
        have hsame := (ih (i + 1) (j + 1)).2 k (Nat.lt_of_succ_lt_succ hk)
        rwa [Nat.add_assoc, Nat.add_comm 1 k, Nat.add_assoc, Nat.add_comm 1 k] at hsame
    · exact ⟨Nat.zero_le _, fun k hk => absurd hk (Nat.not_lt_zero k)⟩

/-- The positions in the table have been passed. -/
def Passed (seen : Array Nat) (i : Nat) : Prop := ∀ k : Nat, seen[k]?.getD 0 ≤ i

theorem Passed.remember (h : Passed seen i) (data : ByteArray) (count : Nat) :
    Passed (remember data seen i count) (i + count) := by
  induction count generalizing seen i with
  | zero => exact h
  | succ count ih =>
    unfold Deflate.remember
    split
    · have hset : Passed (seen.set! (hashAt data i) (i + 1)) (i + 1) := by
        intro k
        rw [Array.set!_eq_setIfInBounds, Array.getElem?_setIfInBounds]
        split_ifs
        · exact Nat.le_refl _
        · exact Nat.zero_le _
        · exact Nat.le_trans (h k) (Nat.le_succ i)
      rw [show i + (count + 1) = i + 1 + count by omega]
      exact ih hset
    · exact fun k => Nat.le_trans (h k) (Nat.le_add_right ..)

theorem repeats_of_found {before : Nat} (hbefore : before ≠ 0) (hle : before ≤ i)
    (hdistance : i + 1 - before ≤ maxDistance) (hi : i < data.size)
    (hlength : minLength ≤ common data (before - 1) i (min maxLength (data.size - i))) :
    Repeats data i (common data (before - 1) i (min maxLength (data.size - i)))
      (i + 1 - before) := by
  obtain ⟨hle', hsame⟩ := common_spec data (before - 1) i (min maxLength (data.size - i))
  have hstart : i - (i + 1 - before) = before - 1 := by omega
  refine ⟨hlength, Nat.le_trans hle' (Nat.min_le_left ..), by omega, hdistance, by omega, ?_, ?_⟩
  · have hinside := Nat.le_trans hle' (Nat.min_le_right ..)
    omega
  · rw [hstart]
    exact hsame

theorem spells_fixedFrom {w : BitWriter} {fuel : Nat} (hw : w.Sound) (hseen : Passed seen i)
    (hi : i ≤ data.size) (hfuel : data.size - i ≤ fuel) : ∃ code, Spells data i code ∧
      w.Writes code (fixedSymbol (fixedFrom data seen w i fuel) endOfBlock) := by
  induction fuel generalizing seen w i with
  | zero =>
    obtain rfl : i = data.size := by omega
    exact ⟨_, .done, BitWriter.writes_fixedSymbol hw endOfBlock⟩
  | succ fuel ih =>
    unfold fixedFrom
    split
    · obtain rfl : i = data.size := by omega
      exact ⟨_, .done, BitWriter.writes_fixedSymbol hw endOfBlock⟩
    · next hlt =>
      dsimp only
      generalize hbefore : (if i + minLength ≤ data.size then seen[hashAt data i]! else 0) = before
      have hle : before ≤ i := by
        rw [← hbefore]
        split
        · rw [Array.getElem!_eq_getD, Array.getD_eq_getD_getElem?]
          exact hseen _
        · exact Nat.zero_le _
      have hbyte := BitWriter.writes_fixedSymbol hw (data.get! i).toNat
      obtain ⟨code, hspells, hrest⟩ := ih hbyte.sound (hseen.remember data 1) (by omega) (by omega)
      have hliteral : ∃ code, Spells data i code ∧ w.Writes code (fixedSymbol (fixedFrom data
          (remember data seen i 1) (fixedSymbol w (data.get! i).toNat) (i + 1) fuel) endOfBlock) :=
        ⟨_, .literal (by omega) hspells, hbyte.trans hrest⟩
      -- the bytes do not come again, or too far away, or too few of them, or they do
      by_cases hfar : before = 0 ∨ maxDistance < i + 1 - before
      · rw [if_pos hfar, if_pos (by decide)]
        exact hliteral
      · rw [if_neg hfar]
        split
        · exact hliteral
        · next hlong =>
          obtain ⟨hzero, hfar⟩ := not_or.1 hfar
          have hrepeats := repeats_of_found hzero hle (Nat.not_lt.1 hfar) (by omega)
            (Nat.not_lt.1 hlong)
          have hmatch := BitWriter.writes_fixedMatch hw hrepeats.length_ge hrepeats.length_le
            hrepeats.distance_pos hrepeats.distance_le
          have hge := hrepeats.length_ge
          unfold minLength at hge
          obtain ⟨code, hspells, hrest⟩ := ih hmatch.sound (hseen.remember data _)
            hrepeats.inside (by omega)
          exact ⟨_, .again hrepeats hspells, hmatch.trans hrest⟩

theorem BitWriter.writes_fixedBlock {w : BitWriter} (hw : w.Sound) (data : ByteArray) :
    ∃ code n, Spells data 0 code ∧ n < 8 ∧
      w.Writes (lowBits 1 1 ++ (lowBits 2 1 ++ (code ++ lowBits n 0))) (fixedBlock data w) ∧
      (fixedBlock data w).written = bitsOf (fixedBlock data w).out.data.toList := by
  have hlast := writes_bits hw (n := 1) (v := 1) (by decide) (by decide)
  have hkind := writes_bits hlast.sound (n := 2) (v := 1) (by decide) (by decide)
  have hseen : Passed (Array.replicate hashSize 0) 0 := by
    intro k
    rw [Array.getElem?_replicate]
    split_ifs <;> exact Nat.le_refl 0
  obtain ⟨code, hspells, hcode⟩ := spells_fixedFrom hkind.sound hseen (Nat.zero_le data.size)
    (Nat.le_refl _)
  obtain ⟨n, hn, halign, hout⟩ := writes_align hcode.sound
  exact ⟨code, n, hspells, hn, hlast.trans (hkind.trans (hcode.trans halign)), hout⟩

end CollectionDelta.Deflate
