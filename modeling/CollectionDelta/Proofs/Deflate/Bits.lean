import CollectionDelta.Deflate.Compress
import CollectionDelta.Proofs.Deflate.Capped
import Mathlib.Algebra.Group.Nat.Defs

/-!
Bits written and read.

* `lowBits`, `highBits`: some bits of a number, lowest or highest first; `bitsOf`: all bits of a
  byte string, in the order in which they are used.
* `BitWriter.written`: all bits that a writer has been given; `BitWriter.Writes`: a writer that has
  been given some more.
* `Inflater.Reads`: from where a reading stands, a program uses up a code and comes to an answer and
  an output, in any data that go on with this code.
* `Reads.pure`, `Reads.bind`, `Reads.unless`, `reads_bits`, `reads_align`, `reads_emit`: all that
  the programs are made of.
-/

namespace CollectionDelta.Deflate

/-! ## Bits of numbers -/

def lowBits : (n value : Nat) → List Nat
  | 0, _ => []
  | n + 1, value => value % 2 :: lowBits n (value / 2)

def highBits (n value : Nat) : List Nat := (lowBits n value).reverse

@[simp] theorem length_lowBits (n value : Nat) : (lowBits n value).length = n := by
  induction n generalizing value with
  | zero => rfl
  | succ n ih => simp [lowBits, ih]

@[simp] theorem length_highBits (n value : Nat) : (highBits n value).length = n := by
  simp [highBits]

theorem lowBits_split (m n value : Nat) :
    lowBits (m + n) value = lowBits m value ++ lowBits n (value / 2 ^ m) := by
  induction m generalizing value with
  | zero => simp [lowBits]
  | succ m ih =>
    rw [Nat.succ_add, lowBits, ih, lowBits, List.cons_append, Nat.div_div_eq_div_mul,
      Nat.pow_succ']

theorem lowBits_add_mul (n low high : Nat) : lowBits n (low + 2 ^ n * high) = lowBits n low := by
  induction n generalizing low with
  | zero => rfl
  | succ n ih =>
    have hdiv : (low + 2 ^ (n + 1) * high) / 2 = low / 2 + 2 ^ n * high := by
      rw [Nat.pow_succ', Nat.mul_assoc]
      omega
    have hmod : (low + 2 ^ (n + 1) * high) % 2 = low % 2 := by
      rw [Nat.pow_succ', Nat.mul_assoc]
      omega
    rw [lowBits, hdiv, hmod, ih, lowBits]

/-- Two numbers, the second one above the bits of the first. -/
theorem lowBits_shiftLeft {m low : Nat} (h : low < 2 ^ m) (n high : Nat) :
    lowBits (m + n) (low + high <<< m) = lowBits m low ++ lowBits n high := by
  rw [lowBits_split, Nat.shiftLeft_eq, Nat.mul_comm, lowBits_add_mul,
    Nat.add_mul_div_left _ _ (Nat.two_pow_pos m), Nat.div_eq_of_lt h, Nat.zero_add]

theorem highBits_succ (n value : Nat) :
    highBits (n + 1) value = value / 2 ^ n % 2 :: highBits n value := by
  rw [highBits, lowBits_split, List.reverse_append]
  rfl

theorem reversed_lt (n value : Nat) : BitWriter.reversed n value < 2 ^ n := by
  induction n generalizing value with
  | zero => exact Nat.one_pos
  | succ n ih =>
    have hrest := ih (value / 2)
    rw [BitWriter.reversed, Nat.shiftLeft_eq, Nat.pow_succ]
    rcases Nat.mod_two_eq_zero_or_one value with h | h <;> rw [h] <;> omega

theorem lowBits_reversed (n value : Nat) :
    lowBits n (BitWriter.reversed n value) = highBits n value := by
  induction n generalizing value with
  | zero => rfl
  | succ n ih =>
    rw [BitWriter.reversed, lowBits_shiftLeft (reversed_lt n _), ih]
    simp only [highBits, lowBits, List.reverse_cons, Nat.mod_mod]

/-! ## Bits of byte strings -/

def bitsOf (b : Bytes) : List Nat := b.flatMap fun x => lowBits 8 x.toNat

theorem bitsOf_append (b b' : Bytes) : bitsOf (b ++ b') = bitsOf b ++ bitsOf b' :=
  List.flatMap_append

theorem length_bitsOf (b : Bytes) : (bitsOf b).length = 8 * b.length := by
  induction b with
  | nil => rfl
  | cons x b ih =>
    rw [← List.singleton_append, bitsOf_append, List.length_append, ih, List.length_append]
    simp [bitsOf]
    omega

theorem lowBits_getElem? {n p : Nat} (h : p < n) (value : Nat) :
    (lowBits n value)[p]? = some (value / 2 ^ p % 2) := by
  induction n generalizing p value with
  | zero => cases h
  | succ n ih =>
    cases p with
    | zero => simp [lowBits]
    | succ p =>
      rw [lowBits, List.getElem?_cons_succ, ih (Nat.lt_of_succ_lt_succ h), Nat.div_div_eq_div_mul,
        Nat.pow_succ']

theorem bitsOf_getElem? (b : Bytes) (p : Nat) :
    (bitsOf b)[p]? = b[p / 8]?.map fun x => x.toNat / 2 ^ (p % 8) % 2 := by
  induction b generalizing p with
  | nil => rfl
  | cons x b ih =>
    rw [← List.singleton_append, bitsOf_append]
    have hlen : (bitsOf [x]).length = 8 := length_bitsOf [x]
    have hbits : bitsOf [x] = lowBits 8 x.toNat := by simp [bitsOf]
    by_cases hp : p < 8
    · rw [List.getElem?_append_left (by omega), hbits, lowBits_getElem? hp,
        Nat.div_eq_of_lt hp, Nat.mod_eq_of_lt hp]
      rfl
    · have hdiv : p / 8 = (p - 8) / 8 + 1 := by omega
      have hmod : p % 8 = (p - 8) % 8 := by omega
      rw [List.getElem?_append_right (by omega), hlen, ih, hdiv, hmod]
      rfl

/-! ## Writing -/

namespace BitWriter

variable {w w' w'' : BitWriter} {code code' : List Nat}

/-- Less than a byte is pending. -/
structure Sound (w : BitWriter) : Prop where
  pending_lt : w.pending < 2 ^ w.count
  count_lt : w.count < 8

def written (w : BitWriter) : List Nat := bitsOf w.out.data.toList ++ lowBits w.count w.pending

structure Writes (w : BitWriter) (code : List Nat) (w' : BitWriter) : Prop where
  sound : w'.Sound
  written : w'.written = w.written ++ code

theorem Writes.trans (h : w.Writes code w') (h' : w'.Writes code' w'') :
    w.Writes (code ++ code') w'' :=
  ⟨h'.sound, by rw [h'.written, h.written, List.append_assoc]⟩

theorem Writes.nil (h : w.Sound) : w.Writes [] w := ⟨h, (List.append_nil _).symm⟩

/-- What is pending goes out byte by byte; the fuel is enough for eight bytes. -/
theorem written_flushBytes (fuel : Nat) (hp : w.pending < 2 ^ w.count)
    (hc : w.count < 8 * (fuel + 1)) :
    (w.flushBytes fuel).Sound ∧ (w.flushBytes fuel).written = w.written := by
  induction fuel generalizing w with
  | zero => exact ⟨⟨hp, hc⟩, rfl⟩
  | succ fuel ih =>
    unfold flushBytes
    split
    · next hlt => exact ⟨⟨hp, hlt⟩, rfl⟩
    · next hge =>
      obtain ⟨rest, hrest⟩ := Nat.exists_eq_add_of_le (Nat.not_lt.1 hge)
      have hp' : w.pending / 256 < 2 ^ (w.count - 8) := by
        rw [hrest, Nat.pow_add] at hp
        rw [hrest, Nat.add_sub_cancel_left]
        exact Nat.div_lt_of_lt_mul hp
      obtain ⟨hsound, hwritten⟩ := ih (w := ⟨w.out.push (UInt8.ofNat w.pending), w.pending / 256,
        w.count - 8⟩) hp' (by dsimp only; omega)
      refine ⟨hsound, hwritten.trans ?_⟩
      have hbyte : bitsOf [UInt8.ofNat w.pending] = lowBits 8 w.pending := by
        have hmod := lowBits_add_mul 8 (w.pending % 256) (w.pending / 256)
        rw [show w.pending % 256 + 2 ^ 8 * (w.pending / 256) = w.pending from
          Nat.mod_add_div _ 256] at hmod
        simp [bitsOf, hmod]
      have hout : (w.out.push (UInt8.ofNat w.pending)).data.toList =
          w.out.data.toList ++ [UInt8.ofNat w.pending] := by simp
      rw [written, written, hout, bitsOf_append, hbyte, List.append_assoc]
      dsimp only
      rw [show w.pending / 256 = w.pending / 2 ^ 8 from rfl, ← lowBits_split, hrest,
        Nat.add_sub_cancel_left]

theorem writes_bits (h : w.Sound) {n v : Nat} (hn : n ≤ 57) (hv : v < 2 ^ n) :
    w.Writes (lowBits n v) (w.bits n v) := by
  have hpending : w.pending + v <<< w.count < 2 ^ (w.count + n) := by
    have hlow := h.pending_lt
    have hmul : (v + 1) * 2 ^ w.count ≤ 2 ^ n * 2 ^ w.count := Nat.mul_le_mul_right _ hv
    rw [Nat.shiftLeft_eq, Nat.add_comm w.count, Nat.pow_add]
    rw [Nat.succ_mul] at hmul
    omega
  have hcount := h.count_lt
  obtain ⟨hsound, hwritten⟩ := written_flushBytes (w := ⟨w.out, w.pending + v <<< w.count,
    w.count + n⟩) 8 hpending (by dsimp only; omega)
  refine ⟨hsound, hwritten.trans ?_⟩
  rw [written, written, lowBits_shiftLeft h.pending_lt, List.append_assoc]

theorem writes_word (h : w.Sound) {n : Nat} (hn : n ≤ 57) (value : Nat) :
    w.Writes (highBits n value) (w.word n value) := by
  rw [← lowBits_reversed]
  exact writes_bits h hn (reversed_lt n value)

/-- The byte in progress is filled up. -/
theorem writes_align (h : w.Sound) : ∃ n < 8, w.Writes (lowBits n 0) w.align ∧
    w.align.written = bitsOf w.align.out.data.toList := by
  by_cases hc : w.count = 0
  · refine ⟨0, by decide, ?_, ?_⟩ <;> rw [align, if_pos hc]
    · exact .nil h
    · rw [written, hc]
      exact List.append_nil _
  · have hlt := h.count_lt
    have hw := writes_bits h (n := 8 - w.count) (v := 0) (by omega) (Nat.two_pow_pos _)
    refine ⟨8 - w.count, by omega, ?_, ?_⟩ <;> rw [align, if_neg hc]
    · exact hw
    · have hlen := congrArg List.length hw.written
      have hnew := hw.sound.count_lt
      simp only [written, List.length_append, length_bitsOf, length_lowBits] at hlen
      have hcount : (w.bits (8 - w.count) 0).count = 0 := by omega
      rw [written, hcount]
      exact List.append_nil _

end BitWriter

/-! ## Reading -/

namespace Inflater

variable {α β : Type} {limit : Nat} {w : Window} {code code' : List Nat} {p : Inflater α}

def Reads (limit : Nat) (p : Inflater α) (w : Window) (code : List Nat) (a : α)
    (out : ByteArray) : Prop :=
  ∀ input : ByteArray, code <+: (bitsOf input.data.toList).drop w.used →
    p (input, limit) w = .ok (a, ⟨w.used + code.length, out⟩)

theorem Reads.pure (a : α) : Reads limit (Pure.pure a) w [] a w.out := fun _ _ => rfl

theorem Reads.bind {a : α} {out : ByteArray} {k : α → Inflater β} {b : β} {out' : ByteArray}
    (hp : Reads limit p w code a out)
    (hk : Reads limit (k a) ⟨w.used + code.length, out⟩ code' b out') :
    Reads limit (p >>= k) w (code ++ code') b out' := by
  intro input hcode
  obtain ⟨rest, hrest⟩ := hcode
  have hcode : code <+: (bitsOf input.data.toList).drop w.used :=
    ⟨code' ++ rest, by rw [← List.append_assoc, hrest]⟩
  have hcode' : code' <+: (bitsOf input.data.toList).drop (w.used + code.length) := by
    refine ⟨rest, ?_⟩
    rw [← List.drop_drop, ← hrest, List.append_assoc, List.drop_left]
  rw [Capping.Obeys.bind_apply, hp input hcode]
  dsimp only
  rw [hk input hcode', List.length_append, Nat.add_assoc]

theorem Reads.bind_cons {b : Nat} {a : α} {out : ByteArray} {k : α → Inflater β} {c : β}
    {out' : ByteArray} (hp : Reads limit p w [b] a out)
    (hk : Reads limit (k a) ⟨w.used + 1, out⟩ code c out') :
    Reads limit (p >>= k) w (b :: code) c out' := hp.bind hk

/-- One of the two programs uses up nothing. -/
theorem Reads.bind_nil {a : α} {out : ByteArray} {k : α → Inflater β} {b : β} {out' : ByteArray}
    (hp : Reads limit p w [] a out) (hk : Reads limit (k a) ⟨w.used, out⟩ code b out') :
    Reads limit (p >>= k) w code b out' := hp.bind hk

theorem Reads.bind_done {a : α} {out : ByteArray} {k : α → Inflater β} {b : β} {out' : ByteArray}
    (hp : Reads limit p w code a out)
    (hk : Reads limit (k a) ⟨w.used + code.length, out⟩ [] b out') :
    Reads limit (p >>= k) w code b out' := by
  rw [← List.append_nil code]
  exact hp.bind hk

theorem Reads.bind_pure {a : α} {out : ByteArray} {k : α → Inflater β} {b : β}
    (hp : Reads limit p w code a out) (hk : k a = Pure.pure b) :
    Reads limit (p >>= k) w code b out := hp.bind_done (hk ▸ .pure b)

/-- The data are not refused where the condition does not hold. -/
theorem Reads.unless {c : Prop} [Decidable c] {k : Unit → Inflater α} {a : α} {out : ByteArray}
    (hc : ¬ c) (hk : Reads limit (k ()) w code a out) :
    Reads limit (if c then corrupt >>= k else k ()) w code a out := by
  rw [if_neg hc]
  exact hk

theorem reads_get : Reads limit (MonadState.get : Inflater Window) w [] w w.out := fun _ _ => rfl

theorem reads_bit (b : Nat) : Reads limit bit w [b] b w.out := by
  intro input hcode
  have hget : (bitsOf input.data.toList)[w.used]? = some b := by
    obtain ⟨rest, hrest⟩ := hcode
    rw [← List.head?_drop, ← hrest]
    rfl
  rw [bitsOf_getElem?, Option.map_eq_some_iff] at hget
  obtain ⟨x, hx, rfl⟩ := hget
  have hlt : w.used / 8 < input.size := (List.getElem?_eq_some_iff.1 hx).1
  have hbyte : input.get! (w.used / 8) = x := by
    obtain ⟨⟨bytes⟩⟩ := input
    change bytes.toArray[w.used / 8]! = x
    simp only [List.getElem!_toArray, List.getElem!_eq_getElem?_getD]
    exact hx ▸ rfl
  change (if w.used / 8 < input.size then _ else _ : Inflater Nat) (input, limit) w = _
  rw [if_pos hlt, hbyte, Nat.shiftRight_eq_div_pow]
  rfl

theorem reads_bits {n v : Nat} (h : v < 2 ^ n) :
    Reads limit (bits n) w (lowBits n v) v w.out := by
  induction n generalizing v w with
  | zero =>
    cases Nat.lt_one_iff.1 h
    exact .pure 0
  | succ n ih =>
    have hrest : v / 2 < 2 ^ n := by
      rw [Nat.pow_succ] at h
      omega
    have hvalue : v % 2 + 2 * (v / 2) = v := Nat.mod_add_div v 2
    refine (reads_bit (v % 2)).bind_cons ?_
    exact (ih hrest).bind_pure (by rw [hvalue])

/-- The bits that fill up a byte are skipped. -/
theorem reads_align {n : Nat} (hn : n < 8) (h : (w.used + n) % 8 = 0) :
    Reads limit align w (lowBits n 0) () w.out := by
  intro input _
  have hused : (w.used + 7) / 8 * 8 = w.used + n := by omega
  rw [length_lowBits, ← hused]
  rfl

theorem reads_emit {b : UInt8} (h : w.out.size + 1 < limit) :
    Reads limit (emit b) w [] () (w.out.push b) := by
  intro input _
  rw [emit_apply, if_neg (by rw [ByteArray.size_push]; omega)]
  rfl

end Inflater
end CollectionDelta.Deflate
