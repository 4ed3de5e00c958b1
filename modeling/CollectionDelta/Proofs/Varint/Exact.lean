import CollectionDelta.Proofs.Varint
import Mathlib.Data.Nat.Size

/-!
Numbers of variable length are read exactly up to 2^64 - 1.

* `Continued`: groups after which another must come; `continued_or_ends` says that bytes are such
  groups, or have a first group that is not continued.
* `length_encode`: how many groups a number is written in.
* `Refused`: why no number stands at the front of some bytes; `written_or_refused` says that there
  is a written form there or such a reason, and `read_refused` that it is told.
* `varint_exact`: what is read of any bytes, and how long the form is that is written.
-/

namespace CollectionDelta.Varint

open CollectionDelta.Stream (Ending)

variable {s : Stream} {k : Nat} {b gs rest : Bytes} {e : Ending}

/-! ## Groups -/

def Continued (gs : Bytes) : Prop := ∀ g ∈ gs, 128 ≤ g.toNat

theorem continued_or_ends (b : Bytes) : Continued b ∨
    ∃ gs last rest, b = gs ++ last :: rest ∧ Continued gs ∧ last.toNat < 128 := by
  induction b with
  | nil => exact .inl nofun
  | cons c b ih =>
    by_cases hc : c.toNat < 128
    · exact .inr ⟨[], c, b, rfl, nofun, hc⟩
    · have hcons : ∀ {gs}, Continued gs → Continued (c :: gs) := fun hgs =>
        List.forall_mem_cons.2 ⟨Nat.le_of_not_lt hc, hgs⟩
      rcases ih with hb | ⟨gs, last, rest, rfl, hgs, hlast⟩
      · exact .inl (hcons hb)
      · exact .inr ⟨c :: gs, last, rest, rfl, hcons hgs, hlast⟩

theorem valueFrom_concat (v : Nat) (gs : Bytes) {last : UInt8} (hlast : last.toNat < 128) :
    valueFrom v (gs ++ [last]) = valueFrom v gs * 128 + last.toNat := by
  rw [valueFrom, List.foldl_append, List.foldl_cons, List.foldl_nil, Nat.mod_eq_of_lt hlast]
  rfl

theorem valueFrom_le_append (v : Nat) (gs rest : Bytes) :
    valueFrom v gs ≤ valueFrom v (gs ++ rest) := by
  have hle := le_valueFrom (valueFrom v gs) rest
  rwa [valueFrom, valueFrom, ← List.foldl_append] at hle

/-! ## Lengths -/

theorem size_div_128 (n : Nat) : (n / 128).size = n.size - 7 := by
  have hle : ∀ m, (n / 128).size ≤ m ↔ n.size ≤ m + 7 := by
    intro m
    rw [Nat.size_le, Nat.size_le, Nat.div_lt_iff_lt_mul (by decide), Nat.pow_add]
  have h := hle (n / 128).size
  have h' := hle (n.size - 7)
  omega

theorem length_leading (n : Nat) : (leading n).length = (n.size + 6) / 7 := by
  fun_induction leading n with
  | case1 => rfl
  | case2 n hn ih =>
    have hpos : 0 < n.size := Nat.size_pos.2 (Nat.pos_of_ne_zero hn)
    rw [List.length_append, ih, size_div_128, List.length_singleton]
    omega

/-- A group for each seven bits, and one for zero. -/
theorem length_encode (n : Nat) : (encode n).length = max 1 ((n.size + 6) / 7) := by
  rw [encode, List.length_append, length_leading, size_div_128, List.length_singleton]
  omega

theorem length_encode_le {n : Nat} (hn : n < 2 ^ 64) : (encode n).length ≤ 10 := by
  have hsize := Nat.size_le.2 hn
  rw [length_encode]
  omega

/-! ## Bytes without a number at their front -/

/-- Why no number stands at the front of the bytes: a group follows others of more than 57 bits, or
all groups are continued. -/
inductive Refused : Bytes → Fault → Prop
  | tooLarge {gs rest : Bytes} (hgs : Continued gs) (hv : 2 ^ 57 ≤ valueFrom 0 gs)
      (hrest : rest ≠ []) : Refused (gs ++ rest) overflow
  | unterminated {b : Bytes} (hb : Continued b)
      (hv : ∀ gs rest, b = gs ++ rest → rest ≠ [] → valueFrom 0 gs < 2 ^ 57) :
      Refused b .shortRead

theorem readOnto_tooLarge {v : Nat} (hgs : Continued gs) (hv : 2 ^ 57 ≤ valueFrom v gs)
    (hrest : rest ≠ []) (hs : s.Holds k (gs ++ rest) e) :
    ∃ t, readOnto v s = (.error overflow, t) := by
  induction gs generalizing v k s with
  | nil =>
    obtain ⟨c, rest, rfl⟩ := List.exists_cons_of_ne_nil hrest
    obtain ⟨t, -, hr⟩ := readOnto_cons v hs
    exact ⟨t, by rw [hr]; exact if_pos hv⟩
  | cons g gs ih =>
    obtain ⟨hg, hgs⟩ := List.forall_mem_cons.1 hgs
    obtain ⟨t, ht, hr⟩ := readOnto_cons v hs
    rw [hr]
    split
    · exact ⟨t, rfl⟩
    · rw [if_neg (Nat.not_lt.2 hg)]
      exact ih hgs (valueFrom_cons_of_le v gs hg ▸ hv) ht

theorem readOnto_unterminated {v : Nat} (hb : Continued b)
    (hv : ∀ gs rest, b = gs ++ rest → rest ≠ [] → valueFrom v gs < 2 ^ 57)
    (hs : s.Holds k b .ended) : ∃ t, readOnto v s = (.error .shortRead, t) := by
  induction b generalizing v k s with
  | nil => exact readOnto_nil v hs
  | cons g b ih =>
    obtain ⟨hg, hb⟩ := List.forall_mem_cons.1 hb
    obtain ⟨t, ht, hr⟩ := readOnto_cons v hs
    have hlt : ¬ limit ≤ v := Nat.not_le.2 (hv [] (g :: b) rfl nofun)
    rw [hr, if_neg hlt, if_neg (Nat.not_lt.2 hg)]
    refine ih hb (fun gs rest hsplit hrest => ?_) ht
    rw [← valueFrom_cons_of_le v gs hg]
    exact hv (g :: gs) rest (congrArg (g :: ·) hsplit) hrest

theorem read_refused {f : Fault} (h : Refused b f) (hs : s.Holds k b .ended) :
    ∃ t, read s = (.error f, t) := by
  cases h with
  | tooLarge hgs hv hrest => exact readOnto_tooLarge hgs hv hrest hs
  | unterminated hb hv => exact readOnto_unterminated hb hv hs

theorem written_of_lt {last : UInt8} (hgs : Continued gs) (hlast : last.toNat < 128)
    (hv : valueFrom 0 (gs ++ [last]) < 2 ^ 64) :
    Written (valueFrom 0 (gs ++ [last])) (gs ++ [last]) :=
  ⟨gs, last, rfl, hgs, hlast, rfl, hv⟩

theorem written_or_refused (b : Bytes) :
    (∃ n w rest, b = w ++ rest ∧ Written n w) ∨ ∃ f, Refused b f := by
  rcases continued_or_ends b with hb | ⟨gs, last, rest, rfl, hgs, hlast⟩
  · by_cases hlarge : ∃ gs rest, b = gs ++ rest ∧ rest ≠ [] ∧ 2 ^ 57 ≤ valueFrom 0 gs
    · obtain ⟨gs, rest, rfl, hrest, hv⟩ := hlarge
      exact .inr ⟨_, .tooLarge (fun g hg => hb g (List.mem_append_left rest hg)) hv hrest⟩
    · refine .inr ⟨_, .unterminated hb fun gs rest hsplit hrest => ?_⟩
      exact Nat.lt_of_not_le fun hv => hlarge ⟨gs, rest, hsplit, hrest, hv⟩
  · by_cases hv : valueFrom 0 (gs ++ [last]) < 2 ^ 64
    · exact .inl ⟨_, gs ++ [last], rest, by simp, written_of_lt hgs hlast hv⟩
    · rw [valueFrom_concat 0 gs hlast] at hv
      have hlarge : 2 ^ 57 ≤ valueFrom 0 gs := by omega
      exact .inr ⟨_, .tooLarge hgs hlarge nofun⟩

/-! ## All bytes -/

/-- No bytes from which a number is read are shorter than those that are written for it. -/
theorem encode_shortest_of_read {n : Nat} (hs : s.Holds k b e) (hread : (read s).1 = .ok n) :
    (encode n).length ≤ b.length ∧ (b.length = (encode n).length → b = encode n) := by
  obtain ⟨w, rest, rfl, hw⟩ := readOnto_sound hs (Prod.ext hread rfl : read s = (.ok n, _))
  have hform : Written n w := hw
  obtain ⟨hle, heq⟩ := encode_shortest hform.groups
  rw [List.length_append]
  refine ⟨Nat.le_add_right_of_le hle, fun hlen => ?_⟩
  have hrest : rest = [] := List.length_eq_zero_iff.1 (by omega)
  rw [hrest, List.append_nil, heq (by omega)]

theorem read_of_lt {last : UInt8} (hgs : Continued gs) (hlast : last.toNat < 128)
    (hv : valueFrom 0 (gs ++ [last]) < 2 ^ 64) (hs : s.Holds k (gs ++ last :: rest) e) :
    ∃ t, read s = (.ok (valueFrom 0 (gs ++ [last])), t) ∧
      t.Holds (k + (gs.length + 1)) rest e := by
  have hsplit : gs ++ last :: rest = gs ++ [last] ++ rest := by simp
  rw [hsplit] at hs
  obtain ⟨t, hread, ht⟩ := readOnto_complete (written_of_lt hgs hlast hv) hs
  rw [List.length_append] at ht
  exact ⟨t, hread, ht⟩

/-- Reading a number fails with a fault of the kind. -/
def Fails (s : Stream) (kind : FaultKind) : Prop := ∃ f t, read s = (.error f, t) ∧ f.kind = kind

theorem fails_tooLarge (hgs : Continued gs) (hv : 2 ^ 57 ≤ valueFrom 0 gs) (hrest : rest ≠ [])
    (hs : s.Holds k (gs ++ rest) e) : Fails s .invalidData := by
  obtain ⟨t, hread⟩ := readOnto_tooLarge hgs hv hrest hs
  exact ⟨overflow, t, hread, rfl⟩

/-- A number below 2^64 is written in a group for each seven bits, is read back from them, and has
no other form that is as short. Groups up to the first that is not continued are read as their value
if it is below 2^64, and are refused otherwise. Without such a group the bytes are refused where a
value grows too large, or else for their end. -/
theorem varint_exact (hs : s.Holds k b e) :
    (∀ n < 2 ^ 64,
      (encode n).length = max 1 ((n.size + 6) / 7) ∧ (encode n).length ≤ 10 ∧
      (∀ rest, b = encode n ++ rest →
        ∃ t, read s = (.ok n, t) ∧ t.Holds (k + (encode n).length) rest e) ∧
      ((read s).1 = .ok n →
        (encode n).length ≤ b.length ∧ (b.length = (encode n).length → b = encode n))) ∧
    (∀ gs last rest, b = gs ++ last :: rest → Continued gs → last.toNat < 128 →
      let v := valueFrom 0 (gs ++ [last])
      ((∃ t, read s = (.ok v, t) ∧ t.Holds (k + (gs.length + 1)) rest e) ↔ v < 2 ^ 64) ∧
        (2 ^ 64 ≤ v → Fails s .invalidData)) ∧
    (Continued b →
      ((∃ gs rest, b = gs ++ rest ∧ rest ≠ [] ∧ 2 ^ 57 ≤ valueFrom 0 gs) →
        Fails s .invalidData) ∧
      ((∀ gs rest, b = gs ++ rest → rest ≠ [] → valueFrom 0 gs < 2 ^ 57) → e = .ended →
        Fails s .unexpectedEof)) := by
  refine ⟨fun n hn => ⟨length_encode n, length_encode_le hn, ?_, ?_⟩, ?_, fun hb => ⟨?_, ?_⟩⟩
  · rintro rest rfl
    exact readOnto_complete (written_encode hn) hs
  · exact encode_shortest_of_read hs
  · rintro gs last rest rfl hgs hlast v
    have hfails : 2 ^ 64 ≤ v → Fails s .invalidData := by
      intro hv
      have hvalue : v = valueFrom 0 gs * 128 + last.toNat := valueFrom_concat 0 gs hlast
      exact fails_tooLarge hgs (by omega) (List.cons_ne_nil last rest) hs
    refine ⟨⟨?_, fun hv => read_of_lt hgs hlast hv hs⟩, hfails⟩
    rintro ⟨t, hread, -⟩
    refine Nat.lt_of_not_le fun hv => ?_
    obtain ⟨f, t', hread', -⟩ := hfails hv
    cases hread.symm.trans hread'
  · rintro ⟨gs, rest, rfl, hrest, hv⟩
    exact fails_tooLarge (fun g hg => hb g (List.mem_append_left rest hg)) hv hrest hs
  · rintro hv rfl
    obtain ⟨t, hread⟩ := readOnto_unterminated hb hv hs
    exact ⟨.shortRead, t, hread, rfl⟩

/-- The largest number after a zero group, the number after it, and a number that is cut short. -/
theorem varint_exact_bounds :
    let largest : Bytes := 0x80 :: 0x81 :: List.replicate 8 0xFF ++ 0x7F :: [9]
    let larger : Bytes := 0x82 :: List.replicate 8 0x80 ++ 0x00 :: []
    (∃ t, read (.ofBytes largest) = (.ok (2 ^ 64 - 1), t) ∧ t.Holds 11 [9] .ended) ∧
      Fails (.ofBytes larger) .invalidData ∧ Fails (.ofBytes [0x81, 0x80]) .unexpectedEof := by
  intro largest larger
  obtain ⟨-, hlargest, -⟩ := varint_exact (Stream.holds_ofBytes largest)
  obtain ⟨-, hlarger, -⟩ := varint_exact (Stream.holds_ofBytes larger)
  obtain ⟨-, -, hcut⟩ := varint_exact (Stream.holds_ofBytes [0x81, 0x80])
  have hzeros : Continued (0x80 :: 0x81 :: List.replicate 8 0xFF) := by simp [Continued]
  have hgroups : Continued (0x82 :: List.replicate 8 0x80) := by simp [Continued]
  have hpair : Continued [0x81, 0x80] := by simp [Continued]
  refine ⟨?_, ?_, (hcut hpair).2 (fun gs rest hsplit _ => ?_) rfl⟩
  · exact (hlargest _ 0x7F [9] rfl hzeros (by decide)).1.2 (by decide)
  · exact (hlarger _ 0x00 [] rfl hgroups (by decide)).2 (by decide)
  · refine Nat.lt_of_le_of_lt (valueFrom_le_append 0 gs rest) ?_
    rw [← hsplit]
    decide

end CollectionDelta.Varint
