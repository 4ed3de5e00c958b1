import CollectionDelta.Proofs.Lzma.Capped
import CollectionDelta.Proofs.Lzma.Refinement
import Mathlib.Tactic.Ring

/-!
The decoder follows the encoder.

* `Machine.follows`: the decoder when it has come as far as the encoder.
* `Decoding.Decodes`: from there, a program comes to an answer, and to where the encoder has come
  next, in all data that lie in the next interval.
* `Decodes.pure`, `Decodes.bind`, `Decodes.get`, `Decodes.read`: what the programs are made of.
* `decodes_bit`, `decodes_direct`, `decodes_tree`, `decodes_plainLiteral`, `decodes_reverseTree`:
  bits, alone and in numbers.
-/

namespace CollectionDelta.Lzma

/-- How far the data lie from the lower end of the interval. -/
def RangeWriter.offset (w : RangeWriter) (input : ByteArray) : UInt32 :=
  UInt32.ofNat (prefixValue input w.position - w.value)

def Machine.follows (input : ByteArray) (s : Encoder.State) (out : ByteArray) : Machine where
  input
  at_ := s.writer.position
  range := s.writer.range
  code := s.writer.offset input
  probabilities := s.probabilities
  out
  state := 0
  rep0 := 0
  rep1 := 0
  rep2 := 0
  rep3 := 0

namespace Encoder

/-- The encoder between two bits, with as many probabilities as there are places for. -/
structure State.Sound (s : State) : Prop where
  writer : s.writer.Sound
  size : s.probabilities.size = Model.literals + Model.literalSize * literalContexts
  likely : ∀ place < s.probabilities.size, RangeWriter.Likely s.probabilities[place]!

theorem getElem!_set! {probabilities : Array Nat} {place place' q : Nat}
    (h : place' < probabilities.size) : (probabilities.set! place q)[place']! =
      if place = place' then q else probabilities[place']! := by
  have hset : place' < (probabilities.setIfInBounds place q).size := by
    rwa [Array.size_setIfInBounds]
  rw [Array.set!_eq_setIfInBounds, getElem!_pos (probabilities.setIfInBounds place q) place' hset,
    getElem!_pos probabilities place' h, Array.getElem_setIfInBounds]

theorem size_bit (s : State) (place : Nat) (b : Bool) :
    (bit s place b).probabilities.size = s.probabilities.size := Array.size_set! ..

theorem State.Sound.bit {s : State} (hs : s.Sound) {place : Nat}
    (hplace : place < s.probabilities.size) (b : Bool) : (bit s place b).Sound := by
  have hq := hs.likely place hplace
  refine ⟨(RangeWriter.refines_bit hs.writer hq b).sound, (size_bit ..).trans hs.size,
    fun place' h => ?_⟩
  rw [size_bit] at h
  change RangeWriter.Likely (s.probabilities.set! place (Model.adapted _ b))[place']!
  rw [getElem!_set! h]
  split
  · exact hq.adapted b
  · exact hs.likely place' h

end Encoder

namespace Decoding

open RangeWriter

variable {α β : Type} {setting : Setting} {s s' s'' : Encoder.State} {out out' out'' : ByteArray}
  {input : ByteArray} {w : RangeWriter} {probabilities : Array Nat} {p : Decoding α}

/-! ## The range decoder -/

theorem toNat_shiftLeft_xor {c : UInt32} (hc : c.toNat < 2 ^ 24) (b : UInt8) :
    ((c <<< 8) ^^^ b.toUInt32).toNat = 256 * c.toNat + b.toNat := by
  have hb : b.toNat < 2 ^ 8 := b.toNat_lt
  rw [UInt32.toNat_xor, toNat_range_shiftLeft hc, UInt8.toNat_toUInt32]
  refine Nat.eq_of_testBit_eq fun i => ?_
  rw [Nat.testBit_xor, show 256 = 2 ^ 8 from rfl, Nat.testBit_two_pow_mul_add _ hb,
    Nat.testBit_two_pow_mul]
  split
  · next h => simp [Nat.not_le.2 h]
  · next h =>
    rw [Nat.testBit_lt_two_pow (Nat.lt_of_lt_of_le hb (Nat.pow_le_pow_right (by decide)
      (Nat.le_of_not_lt h)))]
    simp [Nat.le_of_not_lt h]

theorem toNat_offset (h : w.Within input) :
    (w.offset input).toNat = prefixValue input w.position - w.value := by
  have hrange := w.range.toNat_lt
  have hlt := h.lt_add
  rw [offset, UInt32.toNat_ofNat']
  exact Nat.mod_eq_of_lt (by omega)

theorem normalize_follows (hw : w.Room w.range.toNat) (hrange : 2 ^ 16 ≤ w.range.toNat)
    (hin : (w.normalize 4).Within input) :
    normalize setting (.follows input ⟨w, probabilities⟩ out) =
      .ok ((), .follows input ⟨w.normalize 4, probabilities⟩ out) := by
  rw [normalize_apply]
  rcases normalize_cases hw hrange with ⟨hsound, heq⟩ | hwide
  · have hge : ¬ w.range < 0x1000000 := by
      rw [UInt32.lt_iff_toNat_lt]
      exact Nat.not_lt.2 hsound.range_ge
    rw [heq]
    exact if_neg hge
  · have hlt : w.range < 0x1000000 := UInt32.lt_iff_toNat_lt.2 hwide.range_lt
    have hbefore := hwide.within hin
    have hmore : w.position < input.size := by
      have hsize := hin.position_le
      rw [hwide.position] at hsize
      exact hsize
    have hcode : (w.offset input <<< 8) ^^^ (input.get! w.position).toUInt32 =
        (w.normalize 4).offset input := by
      have hoffset := toNat_offset hbefore
      have hshort := hwide.range_lt
      have hle := hbefore.value_le
      have hlt := hbefore.lt_add
      rw [← UInt32.toNat_inj, toNat_offset hin, toNat_shiftLeft_xor (by omega), hoffset,
        hwide.position, hwide.value, prefixValue_succ hmore]
      omega
    change (if w.range < 0x1000000 then if w.position < input.size then _ else _ else _) = _
    rw [if_pos hlt, if_pos hmore]
    simp only [Machine.follows, hcode, hwide.position, hwide.range]

/-- Data that lie in a part of the interval are as far from the lower end as the part is, or
farther. -/
theorem offset_part {start length : UInt32} (hw : w.Room w.range.toNat)
    (h : start.toNat + length.toNat ≤ w.range.toNat) (hin : (w.part start length).Within input) :
    start ≤ w.offset input ∧ (w.offset input).toNat < start.toNat + length.toNat ∧
      w.offset input - start = (w.part start length).offset input := by
  have hvalue := value_part hw (Nat.le_of_add_right_le h) length
  have hposition : (w.part start length).position = w.position := rfl
  have hoffset := toNat_offset (hin.of_part hw h)
  have hpart := toNat_offset hin
  have hle := hin.value_le
  have hlt := hin.lt_add
  rw [hposition, hvalue] at hpart hle hlt
  change _ < _ + length.toNat at hlt
  have hstart : start ≤ w.offset input := UInt32.le_iff_toNat_le.2 (by omega)
  refine ⟨hstart, by omega, ?_⟩
  rw [← UInt32.toNat_inj, UInt32.toNat_sub_of_le _ _ hstart]
  omega

/-! ## Bits -/

theorem bit_of_lt {place : Nat} {m m' : Machine}
    (hm : m.code < bound m.range m.probabilities[place]!)
    (h : normalize setting { m with
      range := bound m.range m.probabilities[place]!
      probabilities := m.probabilities.set! place (Model.adapted m.probabilities[place]! false) } =
        .ok ((), m')) : bit place setting m = .ok (0, m') := by
  change (if m.code < bound m.range m.probabilities[place]! then
    (modify _ >>= fun _ => normalize >>= fun _ => pure 0) else _ : Decoding Nat) setting m = _
  rw [if_pos hm]
  exact congrArg (Except.bind · fun x => .ok (0, x.2)) h

theorem bit_of_ge {place : Nat} {m m' : Machine}
    (hm : ¬ m.code < bound m.range m.probabilities[place]!)
    (h : normalize setting { m with
      range := m.range - bound m.range m.probabilities[place]!
      code := m.code - bound m.range m.probabilities[place]!
      probabilities := m.probabilities.set! place (Model.adapted m.probabilities[place]! true) } =
        .ok ((), m')) : bit place setting m = .ok (1, m') := by
  change (if m.code < bound m.range m.probabilities[place]! then _ else
    (modify _ >>= fun _ => normalize >>= fun _ => pure 1) : Decoding Nat) setting m = _
  rw [if_neg hm]
  exact congrArg (Except.bind · fun x => .ok (1, x.2)) h

theorem bit_follows {place q : Nat} (hw : w.Sound) (hplace : probabilities[place]! = q)
    (hq : Likely q) (b : Bool) (hin : (w.bit q b).Within input) :
    bit place setting (.follows input ⟨w, probabilities⟩ out) = .ok (b.toNat, .follows input
      ⟨w.bit q b, probabilities.set! place (Model.adapted q b)⟩ out) := by
  rw [bit_eq] at hin ⊢
  obtain ⟨hle, hge, -⟩ := bitLength_spec hw.range_ge hq b
  have hroom := room_part hw.room hle
  obtain ⟨hstart, hlength, hcode⟩ := offset_part hw.room hle (hin.of_normalize hroom hge)
  have hnorm : ∀ code, code = w.offset input - bitStart w.range q b → normalize setting
      { Machine.follows input ⟨w.part (bitStart w.range q b) (bitLength w.range q b),
        probabilities.set! place (Model.adapted q b)⟩ out with code } = .ok ((), .follows input
          ⟨(w.part (bitStart w.range q b) (bitLength w.range q b)).normalize 4,
            probabilities.set! place (Model.adapted q b)⟩ out) := by
    rintro code rfl
    rw [hcode]
    exact normalize_follows hroom hge hin
  subst hplace
  cases b with
  | false =>
    refine bit_of_lt (UInt32.lt_iff_toNat_lt.2 ?_) (hnorm _ (UInt32.sub_zero _).symm)
    exact hlength.trans_eq (Nat.zero_add _)
  | true => exact bit_of_ge (UInt32.not_lt.2 hstart) (hnorm _ rfl)

theorem direct_succ {value n : Nat} {m m' : Machine} (hm : m.range >>> 1 ≤ m.code)
    (h : normalize setting { m with
      range := m.range >>> 1, code := m.code - m.range >>> 1 } = .ok ((), m')) :
    direct value (n + 1) setting m = direct (2 * value + 1) n setting m' := by
  change (if m.range >>> 1 ≤ m.code then
    (modify _ >>= fun _ => normalize >>= fun _ =>
      direct (2 * value + if m.range >>> 1 ≤ m.code then 1 else 0) n) else _ : Decoding Nat)
    setting { m with range := m.range >>> 1 } = _
  rw [if_pos hm, if_pos hm]
  exact congrArg (Except.bind · fun x => direct (2 * value + 1) n setting x.2) h

theorem direct_follows {value n : Nat} (hw : w.Sound) (hin : w.directOne.Within input) :
    direct value (n + 1) setting (.follows input ⟨w, probabilities⟩ out) =
      direct (2 * value + 1) n setting (.follows input ⟨w.directOne, probabilities⟩ out) := by
  obtain ⟨hle, hlength⟩ := halves_le hw
  have hroom := room_part hw.room hle
  obtain ⟨hstart, -, hcode⟩ := offset_part hw.room hle (hin.of_normalize hroom hlength)
  refine direct_succ hstart ?_
  change normalize setting { Machine.follows input ⟨w.part (w.range >>> 1) (w.range >>> 1),
    probabilities⟩ out with code := w.offset input - w.range >>> 1 } = _
  rw [hcode]
  exact normalize_follows hroom hlength hin

/-! ## Programs -/

structure Decodes (setting : Setting) (p : Decoding α) (s : Encoder.State) (out : ByteArray) (a : α)
    (s' : Encoder.State) (out' : ByteArray) : Prop where
  sound : s'.Sound
  refines : s.writer.Refines s'.writer
  ok : ∀ input, s'.writer.Within input →
    p setting (.follows input s out) = .ok (a, .follows input s' out')

namespace Decodes

theorem pure (hs : s.Sound) (a : α) : Decodes setting (Pure.pure a) s out a s out :=
  ⟨hs, .refl hs.writer, fun _ _ => rfl⟩

theorem bind {a : α} {k : α → Decoding β} {b : β} (hp : Decodes setting p s out a s' out')
    (hk : Decodes setting (k a) s' out' b s'' out'') :
    Decodes setting (p >>= k) s out b s'' out'' where
  sound := hk.sound
  refines := hp.refines.trans hk.refines
  ok input hin := by
    rw [Capping.Obeys.bind_apply, hp.ok input (hk.refines.within input hin)]
    exact hk.ok input hin

theorem bind_pure {a : α} {k : α → Decoding β} {b : β} (hp : Decodes setting p s out a s' out')
    (hk : k a = Pure.pure b) : Decodes setting (p >>= k) s out b s' out' :=
  hp.bind (hk ▸ .pure hp.sound b)

theorem get {k : Machine → Decoding β} {b : β}
    (hk : ∀ input, Decodes setting (k (.follows input s out)) s out b s' out') :
    Decodes setting (MonadState.get >>= k) s out b s' out' :=
  ⟨(hk .empty).sound, (hk .empty).refines, fun input hin => (hk input).ok input hin⟩

theorem read {k : Setting → Decoding β} {b : β} (hk : Decodes setting (k setting) s out b s' out') :
    Decodes setting (MonadReader.read >>= k) s out b s' out' :=
  ⟨hk.sound, hk.refines, hk.ok⟩

end Decodes

theorem decodes_bit {place : Nat} (hs : s.Sound) (hplace : place < s.probabilities.size)
    (b : Bool) : Decodes setting (bit place) s out b.toNat (Encoder.bit s place b) out :=
  ⟨hs.bit hplace b, refines_bit hs.writer (hs.likely place hplace) b,
    fun _ hin => bit_follows hs.writer rfl (hs.likely place hplace) b hin⟩

theorem decodes_direct (hs : s.Sound) (value n : Nat) : Decodes setting (direct value n) s out
    (2 ^ n * (value + 1) - 1) ⟨RangeWriter.directOne^[n] s.writer, s.probabilities⟩ out := by
  induction n generalizing s value with
  | zero =>
    rw [Nat.pow_zero, Nat.one_mul, Nat.add_sub_cancel]
    exact .pure hs value
  | succ n ih =>
    have hone := refines_directOne hs.writer
    have hrest := ih (s := ⟨s.writer.directOne, s.probabilities⟩)
      ⟨hone.sound, hs.size, hs.likely⟩ (2 * value + 1)
    refine ⟨hrest.sound, hone.trans hrest.refines, fun input hin => ?_⟩
    rw [direct_follows hs.writer (hrest.refines.within input hin), hrest.ok input hin,
      Nat.pow_succ, Nat.mul_assoc]
    rfl

/-! ## Trees -/

/-- The tree below a node stays below a bound that is great enough for its last row. -/
theorem node_lt {node n b top : Nat} (h : (node + 1) * 2 ^ (n + 1) ≤ 2 * top) (hb : b ≤ 1) :
    node < top ∧ (2 * node + b + 1) * 2 ^ n ≤ 2 * top := by
  have hnode : (node + 1) * 2 ≤ (node + 1) * 2 ^ (n + 1) :=
    Nat.mul_le_mul_left _ (Nat.le_self_pow (Nat.succ_ne_zero n) 2)
  have hchild : (2 * node + b + 1) * 2 ^ n ≤ (node + 1) * 2 ^ (n + 1) := by
    rw [Nat.pow_succ', ← Nat.mul_assoc]
    exact Nat.mul_le_mul_right _ (by omega)
  exact ⟨by omega, by omega⟩

theorem toNat_decide_eq_one (n : Nat) : (decide (n % 2 = 1)).toNat = n % 2 := by
  rcases Nat.mod_two_eq_zero_or_one n with h | h <;> rw [h] <;> rfl

/-- Programs that read a number of some bits, highest first, from the node where the encoder writes
it. -/
theorem decodes_nodes (walk : Nat → Nat → Decoding Nat) {base node n top : Nat}
    (hzero : ∀ node, walk node 0 = Pure.pure node)
    (hsucc : ∀ node n, node < top →
      walk node (n + 1) = bit (base + node) >>= fun b => walk (2 * node + b) n)
    (hs : s.Sound) (hplaces : base + top ≤ s.probabilities.size)
    (htop : (node + 1) * 2 ^ n ≤ 2 * top) (value : Nat) :
    Decodes setting (walk node n) s out (node * 2 ^ n + value % 2 ^ n)
      (Encoder.literalBits s base value node n) out := by
  induction n generalizing s node with
  | zero =>
    rw [hzero, Nat.pow_zero, Nat.mul_one, Nat.mod_one]
    exact .pure hs node
  | succ n ih =>
    obtain ⟨hnode, hchild⟩ := node_lt htop
      (Nat.le_of_lt_succ (Nat.mod_lt (value >>> n) Nat.two_pos))
    have hbit : Decodes setting (bit (base + node)) s out _ _ out := decodes_bit hs
      (Nat.lt_of_lt_of_le (Nat.add_lt_add_left hnode base) hplaces) (value >>> n % 2 = 1)
    rw [toNat_decide_eq_one] at hbit
    have hvalue : node * 2 ^ (n + 1) + value % 2 ^ (n + 1) =
        (2 * node + value >>> n % 2) * 2 ^ n + value % 2 ^ n := by
      rw [Nat.mod_pow_succ, Nat.shiftRight_eq_div_pow, Nat.pow_succ]
      ring
    rw [hsucc node n hnode, hvalue]
    exact hbit.bind (ih hbit.sound (by rwa [Encoder.size_bit]) hchild)

theorem decodes_tree {base n : Nat} (hs : s.Sound) (hplaces : base + 2 ^ n ≤ s.probabilities.size)
    {value : Nat} (hvalue : value < 2 ^ n) :
    Decodes setting (tree base n) s out value (Encoder.literalBits s base value 1 n) out := by
  have hnodes : Decodes setting (treeFrom base 1 n) s out _ _ out :=
    decodes_nodes (treeFrom base) (fun _ => rfl) (fun _ _ _ => rfl) hs hplaces
      (Nat.le_refl (2 * 2 ^ n)) value
  refine hnodes.bind_pure (congrArg Pure.pure ?_)
  rw [Nat.mod_eq_of_lt hvalue, Nat.shiftLeft_eq, Nat.add_sub_cancel_left]

theorem decodes_plainLiteral {base : Nat} (hs : s.Sound)
    (hplaces : base + 256 ≤ s.probabilities.size) (b : UInt8) :
    Decodes setting (plainLiteral base 1 8) s out (256 + b.toNat)
      (Encoder.literalBits s base b.toNat 1 8) out := by
  have hnodes : Decodes setting (plainLiteral base 1 8) s out _ _ out :=
    decodes_nodes (plainLiteral base) (fun _ => rfl)
      (fun _ _ hnode => if_neg (Nat.not_le.2 hnode)) hs hplaces (by decide) b.toNat
  rwa [Nat.mod_eq_of_lt b.toNat_lt] at hnodes

/-- Ones, lowest first: they are found at the same nodes as ones with the highest first. -/
theorem decodes_reverseTree {base node n top value : Nat} (hs : s.Sound)
    (hplaces : base + top ≤ s.probabilities.size) (htop : (node + 1) * 2 ^ n ≤ 2 * top)
    (hvalue : ∀ k < n, value >>> k % 2 = 1) (weight low : Nat) :
    Decodes setting (reverseTree base node weight low n) s out (low + weight * (2 ^ n - 1))
      (Encoder.literalBits s base value node n) out := by
  induction n generalizing s node weight low with
  | zero => exact .pure hs low
  | succ n ih =>
    obtain ⟨hnode, hchild⟩ := node_lt htop (Nat.le_refl 1)
    have hbit : Decodes setting (bit (base + node)) s out _ _ out := decodes_bit hs
      (Nat.lt_of_lt_of_le (Nat.add_lt_add_left hnode base) hplaces) true
    have hsum : low + weight * (2 ^ (n + 1) - 1) =
        low + 1 * weight + 2 * weight * (2 ^ n - 1) := by
      obtain ⟨k, hk⟩ := Nat.exists_eq_succ_of_ne_zero (Nat.two_pow_pos n).ne'
      rw [Nat.pow_succ', hk, Nat.succ_eq_add_one, Nat.add_sub_cancel,
        show 2 * (k + 1) - 1 = 2 * k + 1 by omega]
      ring
    rw [hsum, Encoder.literalBits, hvalue n (Nat.lt_succ_self n)]
    exact hbit.bind (ih hbit.sound (by rwa [Encoder.size_bit]) hchild
      (fun k hk => hvalue k (Nat.lt_succ_of_lt hk)) _ _)

/-! ## The dictionary -/

theorem decodes_emit (hs : s.Sound) {b : UInt8} (h : (out.push b).size ≤ setting.limit) :
    Decodes setting (emit b) s out () s (out.push b) := by
  refine ⟨hs, .refl hs.writer, fun input _ => ?_⟩
  have hfits : ¬ ((out.push b).size % setting.properties.dictionary = 0 ∧
      setting.limit < (out.push b).size) := fun hlong => Nat.not_lt.2 h hlong.2
  exact (emit_apply b setting.limit _).trans (if_neg hfits)

end Decoding
end CollectionDelta.Lzma
