import CollectionDelta.Proofs.Deflate.Bits

/-!
Canonical codes.

* `Huffman.firstWord`, `Huffman.firstPlace`: where the words of a length begin, and their symbols.
* `Huffman.IsWord`: a number of some bits is the word of a symbol; `Inflater.reads_symbol` says that
  this symbol is read then.
* `Huffman.counts_ofLengths`, `Huffman.symbols_ofLengths`: a code by the lengths of its words.
* `lengthCode`, `distanceCode`: the fixed codes; `reads_fixedWord`, `reads_fixedDistance`: what is
  written in them is read back.
-/

namespace CollectionDelta.Deflate

/-! ## Words -/

namespace Huffman

variable (h : Huffman)

/-- The first word of one bit more than the number: it follows the words that are a bit shorter. -/
def firstWord : Nat → Nat
  | 0 => 0
  | n + 1 => 2 * (firstWord n + h.counts[n + 1]!)

/-- How many symbols have words of at most so many bits. -/
def firstPlace : Nat → Nat
  | 0 => 0
  | n + 1 => firstPlace n + h.counts[n + 1]!

/-- The number, written with one bit more than `n`, is the word of the symbol, and it does not begin
with a shorter word. -/
structure IsWord (n value s : Nat) : Prop where
  fits : value < 2 ^ (n + 1)
  first_le : h.firstWord n ≤ value
  lt_next : value < h.firstWord n + h.counts[n + 1]!
  longer : ∀ j < n, h.firstWord j + h.counts[j + 1]! ≤ value / 2 ^ (n - j)
  symbol : h.symbols[h.firstPlace n + (value - h.firstWord n)]! = s

end Huffman

namespace Inflater

variable {h : Huffman} {limit n value s : Nat} {w : Window}

/-- After `j` bits of a word, what is left of it leads to its symbol. -/
theorem reads_symbolFrom (hw : h.IsWord n value s) {j k more : Nat} (hj : j + k = n)
    (hmore : k < more) :
    Reads limit (symbolFrom h (2 * (value / 2 ^ (k + 1))) (h.firstWord j) (h.firstPlace j) (j + 1)
      more) w (highBits (k + 1) value) (some s) w.out := by
  induction k generalizing j more w with
  | zero =>
    obtain ⟨more, rfl⟩ := Nat.exists_eq_add_of_lt hmore
    obtain rfl : j = n := hj
    rw [highBits_succ]
    refine (reads_bit _).bind_cons ?_
    have hcode : 2 * (value / 2 ^ (0 + 1)) + value / 2 ^ 0 % 2 = value := by omega
    dsimp only
    rw [hcode, if_pos hw.lt_next, hw.symbol]
    exact .pure (some s)
  | succ k ih =>
    obtain ⟨more, rfl⟩ : ∃ m, more = m + 1 := ⟨more - 1, by omega⟩
    rw [highBits_succ]
    refine (reads_bit _).bind_cons ?_
    have hcode : 2 * (value / 2 ^ (k + 1 + 1)) + value / 2 ^ (k + 1) % 2 =
        value / 2 ^ (k + 1) := by
      rw [Nat.pow_succ 2 (k + 1), ← Nat.div_div_eq_div_mul]
      omega
    have hlonger := hw.longer j (by omega)
    rw [show n - j = k + 1 by omega] at hlonger
    dsimp only
    rw [hcode, if_neg (Nat.not_lt.2 hlonger)]
    exact ih (j := j + 1) (by omega) (by omega)

theorem reads_symbol (hw : h.IsWord n value s) (hn : n < h.longest) :
    Reads limit (symbol h) w (highBits (n + 1) value) (some s) w.out := by
  have hmore : n < max 1 h.longest := Nat.lt_of_lt_of_le hn (Nat.le_max_right 1 h.longest)
  have hcode : 2 * (value / 2 ^ (n + 1)) = 0 := by rw [Nat.div_eq_of_lt hw.fits]
  have hread : Reads limit (symbolFrom h (2 * (value / 2 ^ (n + 1))) 0 0 1 (max 1 h.longest)) w
      (highBits (n + 1) value) (some s) w.out := reads_symbolFrom hw (Nat.zero_add n) hmore
  rwa [hcode] at hread

end Inflater

/-! ## Codes by the lengths of their words -/

namespace Huffman

theorem modify_modify (c : Array Nat) (l m n : Nat) :
    (c.modify l (· + m)).modify l (· + n) = c.modify l (· + (m + n)) := by
  refine Array.ext (by simp) fun i hi hi' => ?_
  simp only [Array.getElem_modify]
  split <;> simp [Nat.add_assoc]

theorem eq_of_parts {h h' : Huffman} (hcounts : h.counts = h'.counts)
    (hsymbols : h.symbols = h'.symbols) : h = h' := by
  cases h
  cases h'
  exact congrArg₂ mk hcounts hsymbols

theorem counts_ofLengths (lengths : Array Nat) : (ofLengths lengths).counts =
    lengths.toList.foldl (fun c l => c.modify l (· + 1))
      (Array.replicate (maxCodeLength + 1) 0) := by
  rw [ofLengths, ← Array.foldl_toList]

theorem foldl_modify (c : Array Nat) (k l : Nat) :
    (List.replicate k l).foldl (fun c l => c.modify l (· + 1)) c = c.modify l (· + k) := by
  induction k generalizing c with
  | zero =>
    refine Array.ext (by simp) fun i hi hi' => ?_
    simp [Array.getElem_modify]
  | succ k ih => rw [List.replicate_succ, List.foldl_cons, ih, modify_modify, Nat.add_comm 1 k]

theorem fold_push (P : Nat → Prop) [DecidablePred P] (n : Nat) (s : Array Nat) :
    n.fold (fun k _ s => if P k then s.push k else s) s =
      s ++ ((List.range n).filter fun k => P k).toArray := by
  induction n with
  | zero => simp
  | succ n ih =>
    rw [Nat.fold_succ, ih, List.range_succ, List.filter_append]
    by_cases hn : P n <;> simp [hn]

theorem foldl_append_flatMap (f : Nat → List Nat) (is : List Nat) (s : Array Nat) :
    is.foldl (fun s i => s ++ (f i).toArray) s = s ++ (is.flatMap f).toArray := by
  induction is generalizing s with
  | nil => simp
  | cons i is ih => rw [List.foldl_cons, ih, List.flatMap_cons]; simp

/-- Symbols come in the order of the lengths of their words. -/
theorem symbols_ofLengths (lengths : Array Nat) : (ofLengths lengths).symbols =
    ((List.range maxCodeLength).flatMap fun i =>
      (List.range lengths.size).filter fun k => lengths[k]! = i + 1).toArray := by
  have hinner : ∀ (s : Array Nat) (i : Nat), lengths.size.fold
      (fun k _ s => if lengths[k]! = i + 1 then s.push k else s) s =
      s ++ ((List.range lengths.size).filter fun k => lengths[k]! = i + 1).toArray :=
    fun s i => fold_push (fun k => lengths[k]! = i + 1) lengths.size s
  rw [ofLengths]
  simp only [hinner]
  rw [foldl_append_flatMap]
  simp

end Huffman

/-! ## The fixed codes -/

def lengthCode : Huffman where
  counts := #[0, 0, 0, 0, 0, 0, 0, 24, 152, 112, 0, 0, 0, 0, 0, 0]
  symbols := (List.range' 256 24 ++ List.range' 0 144 ++ List.range' 280 8 ++
    List.range' 144 112).toArray

def distanceCode : Huffman where
  counts := #[0, 0, 0, 0, 0, 30, 0, 0, 0, 0, 0, 0, 0, 0, 0, 0]
  symbols := (List.range' 0 30).toArray

def fixedLength (s : Nat) : Nat :=
  if s < 144 then 8 else if s < 256 then 9 else if s < 280 then 7 else 8

theorem fixedLengths_getElem! {s : Nat} (h : s < 288) : fixedLengths[s]! = fixedLength s := by
  rw [fixedLengths, fixedLength, List.getElem!_toArray, List.getElem!_eq_getElem?_getD]
  simp only [-List.reduceReplicate, List.getElem?_append, List.getElem?_replicate,
    List.length_append, List.length_replicate]
  split_ifs <;> first | rfl | omega

theorem symbols_fixedLengths :
    (Huffman.ofLengths fixedLengths).symbols = lengthCode.symbols := by
  have hsize : fixedLengths.size = 288 := by
    rw [fixedLengths, List.size_toArray]
    simp only [List.length_append, List.length_replicate]
  have hfilter : ∀ i, ((List.range 288).filter fun k => fixedLengths[k]! = i + 1) =
      (List.range 288).filter fun k => fixedLength k = i + 1 := by
    intro i
    refine List.filter_congr fun k hk => ?_
    rw [fixedLengths_getElem! (List.mem_range.1 hk)]
  have horder : ((List.range maxCodeLength).flatMap fun i =>
      (List.range 288).filter fun k => fixedLength k = i + 1) = List.range' 256 24 ++
        List.range' 0 144 ++ List.range' 280 8 ++ List.range' 144 112 := by
    decide +kernel
  rw [Huffman.symbols_ofLengths, hsize]
  simp only [hfilter]
  rw [horder, lengthCode]

theorem counts_fixedLengths : (Huffman.ofLengths fixedLengths).counts = lengthCode.counts := by
  have hcounts : ((((Array.replicate 16 0).modify 8 (· + 144)).modify 9 (· + 112)).modify 7
      (· + 24)).modify 8 (· + 8) = lengthCode.counts := by
    decide +kernel
  rw [Huffman.counts_ofLengths, fixedLengths, List.foldl_append, List.foldl_append,
    List.foldl_append, Huffman.foldl_modify, Huffman.foldl_modify, Huffman.foldl_modify,
    Huffman.foldl_modify]
  exact hcounts

theorem counts_fixedDistances :
    (Huffman.ofLengths fixedDistances).counts = distanceCode.counts := by
  have hcounts : (Array.replicate 16 0).modify 5 (· + 30) = distanceCode.counts := by
    decide +kernel
  rw [Huffman.counts_ofLengths, fixedDistances, Huffman.foldl_modify]
  exact hcounts

theorem symbols_fixedDistances :
    (Huffman.ofLengths fixedDistances).symbols = distanceCode.symbols := by
  decide +kernel

theorem fixedCodes_fst : Inflater.fixedCodes.1 = lengthCode :=
  Huffman.eq_of_parts (h := Huffman.ofLengths fixedLengths) counts_fixedLengths symbols_fixedLengths

theorem fixedCodes_snd : Inflater.fixedCodes.2 = distanceCode :=
  Huffman.eq_of_parts (h := Huffman.ofLengths fixedDistances) counts_fixedDistances
    symbols_fixedDistances

/-! ## Symbols in the fixed codes -/

/-- The word of a symbol of lengths and literals. -/
def fixedWord (s : Nat) : List Nat :=
  if s < 144 then highBits 8 (0x30 + s)
  else if s < 256 then highBits 9 (0x190 + (s - 144))
  else if s < 280 then highBits 7 (s - 256)
  else highBits 8 (0xC0 + (s - 280))

theorem BitWriter.writes_fixedSymbol {w : BitWriter} (h : w.Sound) (s : Nat) :
    w.Writes (fixedWord s) (fixedSymbol w s) := by
  unfold fixedWord fixedSymbol
  split
  · exact writes_word h (by decide) _
  · split
    · exact writes_word h (by decide) _
    · split
      · exact writes_word h (by decide) _
      · exact writes_word h (by decide) _

theorem getElem?_consecutive (start n k : Nat) :
    (List.range' start n)[k]? = if k < n then some (start + k) else none := by
  split
  · next h => rw [List.getElem?_range' h, Nat.one_mul]
  · next h => exact List.getElem?_eq_none (by rw [List.length_range']; omega)

theorem lengthCode_getElem! (k : Nat) : lengthCode.symbols[k]! =
    if k < 24 then 256 + k else if k < 168 then k - 24 else if k < 176 then 112 + k
    else if k < 288 then k - 32 else 0 := by
  rw [lengthCode, List.getElem!_toArray, List.getElem!_eq_getElem?_getD]
  simp only [List.getElem?_append, List.length_append, List.length_range', getElem?_consecutive]
  split_ifs <;> simp only [Option.getD_some, Option.getD_none, Nat.default_eq_zero] <;> omega

/-- No word has less than seven bits; those of seven bits are below 24, those of eight below 200. -/
theorem lengthCode_longer {n value : Nat} (hn : n ≤ 8) (h7 : 6 < n → 24 ≤ value / 2 ^ (n - 6))
    (h8 : 7 < n → 200 ≤ value / 2 ^ (n - 7)) :
    ∀ j < n, lengthCode.firstWord j + lengthCode.counts[j + 1]! ≤ value / 2 ^ (n - j) := by
  intro j hj
  have hshort : ∀ j < 6, lengthCode.firstWord j + lengthCode.counts[j + 1]! = 0 := by decide
  have hseven : lengthCode.firstWord 6 + lengthCode.counts[6 + 1]! = 24 := by decide
  have height : lengthCode.firstWord 7 + lengthCode.counts[7 + 1]! = 200 := by decide
  by_cases hj6 : j < 6
  · rw [hshort j hj6]
    exact Nat.zero_le _
  · obtain rfl | rfl : j = 6 ∨ j = 7 := by omega
    · exact hseven ▸ h7 hj
    · exact height ▸ h8 hj

theorem isWord_seven {s : Nat} (h : 256 ≤ s) (h' : s < 280) : lengthCode.IsWord 6 (s - 256) s := by
  have hfirst : lengthCode.firstWord 6 = 0 := by decide
  have hnext : lengthCode.counts[6 + 1]! = 24 := by decide
  have hplace : lengthCode.firstPlace 6 = 0 := by decide
  refine ⟨by omega, by omega, by omega, lengthCode_longer (by decide) (by omega) (by omega), ?_⟩
  rw [hfirst, hplace, lengthCode_getElem!, if_pos (by omega)]
  omega

theorem isWord_eight {value s : Nat} (h : 48 ≤ value) (h' : value < 200)
    (hs : s = if value < 192 then value - 48 else value + 88) : lengthCode.IsWord 7 value s := by
  have hfirst : lengthCode.firstWord 7 = 48 := by decide
  have hnext : lengthCode.counts[7 + 1]! = 152 := by decide
  have hplace : lengthCode.firstPlace 7 = 24 := by decide
  refine ⟨by omega, by omega, by omega, lengthCode_longer (by decide) (by omega) (by omega), ?_⟩
  rw [hfirst, hplace, lengthCode_getElem!, if_neg (by omega), hs]
  split_ifs <;> omega

theorem isWord_nine {s : Nat} (h : 144 ≤ s) (h' : s < 256) :
    lengthCode.IsWord 8 (400 + (s - 144)) s := by
  have hfirst : lengthCode.firstWord 8 = 400 := by decide
  have hnext : lengthCode.counts[8 + 1]! = 112 := by decide
  have hplace : lengthCode.firstPlace 8 = 176 := by decide
  refine ⟨by omega, by omega, by omega, lengthCode_longer (by decide) (by omega) (by omega), ?_⟩
  rw [hfirst, hplace, lengthCode_getElem!]
  split_ifs <;> omega

namespace Inflater

variable {limit : Nat} {w : Window}

theorem reads_fixedWord {s : Nat} (h : s < 288) :
    Reads limit (symbol fixedCodes.1) w (fixedWord s) (some s) w.out := by
  have hlongest : lengthCode.longest = 9 := by decide
  rw [fixedCodes_fst]
  unfold fixedWord
  split_ifs with h1 h2 h3
  · refine reads_symbol (isWord_eight (by omega) (by omega) ?_) (hlongest ▸ by decide)
    rw [if_pos (by omega)]
    omega
  · exact reads_symbol (isWord_nine (by omega) h2) (hlongest ▸ by decide)
  · exact reads_symbol (isWord_seven (by omega) h3) (hlongest ▸ by decide)
  · refine reads_symbol (isWord_eight (by omega) (by omega) ?_) (hlongest ▸ by decide)
    rw [if_neg (by omega)]
    omega

theorem reads_fixedDistance {d : Nat} (h : d < 30) :
    Reads limit (symbol fixedCodes.2) w (highBits 5 d) (some d) w.out := by
  have hlongest : distanceCode.longest = 5 := by decide
  have hshort : ∀ j < 4, distanceCode.firstWord j + distanceCode.counts[j + 1]! = 0 := by decide
  have hfirst : distanceCode.firstWord 4 = 0 := by decide
  have hnext : distanceCode.counts[4 + 1]! = 30 := by decide
  have hplace : distanceCode.firstPlace 4 = 0 := by decide
  have hword : distanceCode.IsWord 4 d d := by
    refine ⟨by omega, by omega, by omega, fun j hj => ?_, ?_⟩
    · rw [hshort j hj]
      exact Nat.zero_le _
    · rw [hfirst, hplace, distanceCode, List.getElem!_toArray, List.getElem!_eq_getElem?_getD]
      rw [getElem?_consecutive, Nat.zero_add, if_pos (by omega), Option.getD_some]
      omega
  rw [fixedCodes_snd]
  exact reads_symbol hword (hlongest ▸ by decide)

end Inflater
end CollectionDelta.Deflate
