import CollectionDelta.Proofs.Format.Acceptance
import Mathlib.Algebra.Group.Nat.Defs
import Mathlib.Data.List.Induction

/-!
The written forms of a number of variable length.

* `Written`: groups of seven bits that are all continued but the last one, of a value below 2^64;
  leading groups may be zero.
* `Groups`: the same without the bound; `prefixFree_groups` says that such groups end themselves.
* `readOnto_cons`, `readOnto_complete`, `readOnto_sound`: reading group by group, and of a whole
  form; `accepts_varint` says that reading a number accepts its written forms.
* `groups_encode`, `written_encode`: what is written is one of them.
* `length_encode_mono`: a smaller number is not written in more bytes.
* `Shortest`: a form that is as short as any of its number; `shortest_iff` says that it is the one
  that is written.
-/

namespace CollectionDelta.Varint

/-- The value of groups of seven bits after others of the value `v`, most significant first. -/
def valueFrom (v : Nat) (w : Bytes) : Nat := w.foldl (fun v c => v * 128 + c.toNat % 128) v

/-- The groups that follow others of the value `v` in a written form of a number. -/
def WrittenFrom (v : Nat) : Form Nat := fun n w =>
  ∃ groups last, w = groups ++ [last] ∧ (∀ g ∈ groups, 128 ≤ g.toNat) ∧ last.toNat < 128 ∧
    valueFrom v w = n ∧ n < 2 ^ 64

def Written : Form Nat := WrittenFrom 0

/-- Groups that are all continued but the last one, of whatever value. -/
def Groups : Form Nat := fun n w =>
  ∃ groups last, w = groups ++ [last] ∧ (∀ g ∈ groups, 128 ≤ g.toNat) ∧ last.toNat < 128 ∧
    valueFrom 0 w = n

theorem Written.groups {n : Nat} {w : Bytes} (h : Written n w) : Groups n w := by
  obtain ⟨groups, last, hw, hgroups, hlast, hn, -⟩ := h
  exact ⟨groups, last, hw, hgroups, hlast, hn⟩

/-- The first group that is not continued ends a number. -/
theorem groups_append_eq {gs gs' rest rest' : Bytes} {c c' : UInt8}
    (hgs : ∀ g ∈ gs, 128 ≤ g.toNat) (hgs' : ∀ g ∈ gs', 128 ≤ g.toNat) (hc : c.toNat < 128)
    (hc' : c'.toNat < 128) (h : gs ++ c :: rest = gs' ++ c' :: rest') :
    gs = gs' ∧ c = c' ∧ rest = rest' := by
  induction gs generalizing gs' with
  | nil =>
    cases gs' with
    | nil => exact ⟨rfl, List.cons.inj h⟩
    | cons g' gs' =>
      have hg' := hgs' g' (List.mem_cons_self ..)
      have heq : c = g' := (List.cons.inj h).1
      rw [heq] at hc
      omega
  | cons g gs ih =>
    have hg := hgs g (List.mem_cons_self ..)
    cases gs' with
    | nil =>
      have heq : g = c' := (List.cons.inj h).1
      rw [heq] at hg
      omega
    | cons g' gs' =>
      obtain ⟨rfl, htail⟩ := List.cons.inj h
      obtain ⟨rfl, heq⟩ := ih (fun x hx => hgs x (List.mem_cons_of_mem _ hx))
        (fun x hx => hgs' x (List.mem_cons_of_mem _ hx)) htail
      exact ⟨rfl, heq⟩

theorem prefixFree_groups : Groups.PrefixFree := by
  rintro n n' w w' rest rest' ⟨gs, c, rfl, hgs, hc, rfl⟩ ⟨gs', c', rfl, hgs', hc', rfl⟩ h
  rw [List.append_assoc, List.append_assoc] at h
  obtain ⟨rfl, rfl, rfl⟩ := groups_append_eq hgs hgs' hc hc' h
  exact ⟨rfl, rfl, rfl⟩

/-! ## Group by group -/

theorem le_valueFrom (v : Nat) (w : Bytes) : v ≤ valueFrom v w := by
  induction w generalizing v with
  | nil => exact Nat.le_refl v
  | cons c w ih =>
    have h := ih (v * 128 + c.toNat % 128)
    change v ≤ valueFrom (v * 128 + c.toNat % 128) w
    omega

theorem not_writtenFrom_nil {v n : Nat} : ¬ WrittenFrom v n [] := by
  rintro ⟨groups, last, h, -⟩
  simp at h

theorem writtenFrom_cons_of_lt {v n : Nat} {c : UInt8} {w : Bytes} (hc : c.toNat < 128) :
    WrittenFrom v n (c :: w) ↔ w = [] ∧ n = v * 128 + c.toNat ∧ n < 2 ^ 64 := by
  have hmod : c.toNat % 128 = c.toNat := Nat.mod_eq_of_lt hc
  constructor
  · rintro ⟨groups, last, hw, hgroups, -, hval, hn⟩
    cases groups with
    | nil =>
      obtain ⟨rfl, rfl⟩ : c = last ∧ w = [] := by simpa using hw
      refine ⟨rfl, ?_, hn⟩
      rw [← hval, ← hmod]
      rfl
    | cons g groups =>
      have hg := hgroups g (List.mem_cons_self ..)
      obtain ⟨rfl, -⟩ : c = g ∧ w = groups ++ [last] := by simpa using hw
      omega
  · rintro ⟨rfl, rfl, hn⟩
    refine ⟨[], c, rfl, by simp, hc, ?_, hn⟩
    rw [← hmod]
    rfl

theorem valueFrom_cons_of_le (v : Nat) {c : UInt8} (w : Bytes) (hc : 128 ≤ c.toNat) :
    valueFrom v (c :: w) = valueFrom (v * 128 + (c.toNat - 128)) w := by
  have hmod : c.toNat % 128 = c.toNat - 128 := by
    have := c.toNat_lt
    omega
  rw [← hmod]
  rfl

theorem writtenFrom_cons_of_le {v n : Nat} {c : UInt8} {w : Bytes} (hc : 128 ≤ c.toNat) :
    WrittenFrom v n (c :: w) ↔ WrittenFrom (v * 128 + (c.toNat - 128)) n w := by
  have hval := valueFrom_cons_of_le v w hc
  constructor
  · rintro ⟨groups, last, hw, hgroups, hlast, hn, hlt⟩
    cases groups with
    | nil =>
      obtain ⟨rfl, -⟩ : c = last ∧ w = [] := by simpa using hw
      omega
    | cons g groups =>
      obtain ⟨rfl, rfl⟩ : c = g ∧ w = groups ++ [last] := by simpa using hw
      exact ⟨groups, last, rfl, fun x hx => hgroups x (List.mem_cons_of_mem _ hx), hlast,
        hval.symm.trans hn, hlt⟩
  · rintro ⟨groups, last, rfl, hgroups, hlast, hn, hlt⟩
    refine ⟨c :: groups, last, rfl, ?_, hlast, hval.trans hn, hlt⟩
    intro x hx
    rcases List.mem_cons.1 hx with rfl | hx
    · exact hc
    · exact hgroups x hx

/-- No written form is refused for its length: what comes before its last group stays within 64
bits. -/
theorem lt_limit_of_writtenFrom {v n : Nat} {w : Bytes} (h : WrittenFrom v n w) : v < limit := by
  obtain ⟨groups, last, rfl, -, -, hval, hn⟩ := h
  have hle := le_valueFrom v groups
  have hlast : valueFrom v (groups ++ [last]) = valueFrom v groups * 128 + last.toNat % 128 := by
    simp [valueFrom]
  unfold limit
  omega

/-! ## Reading -/

theorem readOnto_cons (v : Nat) {k : Nat} {c : UInt8} {w : Bytes} {s : Stream}
    {e : Stream.Ending} (hs : s.Holds k (c :: w) e) : ∃ t, t.Holds (k + 1) w e ∧
      readOnto v s = if limit ≤ v then (.error overflow, t)
        else if c.toNat < 128 then (.ok (v * 128 + c.toNat), t)
        else readOnto (v * 128 + (c.toNat - 128)) t := by
  obtain ⟨t, hr, ht⟩ := Stream.exactly_holds (by simp : 1 ≤ (c :: w).length) hs
  refine ⟨t, ht, ?_⟩
  rw [readOnto]
  split
  · next f t' h => simp [hr] at h
  · next b t' h =>
    rw [hr] at h
    cases h
    rfl

theorem readOnto_nil (v : Nat) {k : Nat} {s : Stream} (hs : s.Holds k [] .ended) :
    ∃ t, readOnto v s = (.error .shortRead, t) := by
  obtain ⟨t, hr, -⟩ := Stream.exactly_short (by simp : ([] : Bytes).length < 1) hs
  refine ⟨t, ?_⟩
  rw [readOnto]
  split
  · next f t' h => rw [hr] at h; cases h; rfl
  · next b t' h => simp [hr] at h

private theorem readOnto_broken (v : Nat) {k : Nat} {f : Fault} {s : Stream}
    (hs : s.Holds k [] (.broken f)) : ∃ t, readOnto v s = (.error f, t) := by
  obtain ⟨t, hr, -⟩ := Stream.exactly_broken (by simp : ([] : Bytes).length < 1) hs
  refine ⟨t, ?_⟩
  rw [readOnto]
  split
  · next f' t' h => rw [hr] at h; cases h; rfl
  · next b t' h => simp [hr] at h

theorem readOnto_complete {v n k : Nat} {w rest : Bytes} {s : Stream} {e : Stream.Ending}
    (hw : WrittenFrom v n w) (hs : s.Holds k (w ++ rest) e) :
    ∃ t, readOnto v s = (.ok n, t) ∧ t.Holds (k + w.length) rest e := by
  induction w generalizing v k s with
  | nil => exact absurd hw not_writtenFrom_nil
  | cons c w ih =>
    have hv : ¬ limit ≤ v := Nat.not_le.2 (lt_limit_of_writtenFrom hw)
    obtain ⟨t, ht, hr⟩ := readOnto_cons v hs
    rw [if_neg hv] at hr
    by_cases hc : c.toNat < 128
    · obtain ⟨rfl, rfl, -⟩ := (writtenFrom_cons_of_lt hc).1 hw
      rw [if_pos hc] at hr
      exact ⟨t, hr, ht⟩
    · rw [if_neg hc] at hr
      obtain ⟨t', hr', ht'⟩ := ih ((writtenFrom_cons_of_le (Nat.le_of_not_lt hc)).1 hw) ht
      refine ⟨t', hr.trans hr', ?_⟩
      rwa [Nat.add_assoc, Nat.add_comm 1] at ht'

theorem readOnto_sound {v n k : Nat} {b : Bytes} {s t : Stream} {e : Stream.Ending}
    (hs : s.Holds k b e) (hr : readOnto v s = (.ok n, t)) :
    ∃ w rest, b = w ++ rest ∧ WrittenFrom v n w := by
  induction b generalizing v k s with
  | nil =>
    cases e with
    | ended =>
      obtain ⟨t', h⟩ := readOnto_nil v hs
      simp [hr] at h
    | broken f =>
      obtain ⟨t', h⟩ := readOnto_broken v hs
      simp [hr] at h
  | cons c b ih =>
    obtain ⟨t', ht', h⟩ := readOnto_cons v hs
    rw [hr] at h
    split at h
    · cases h
    · next hv =>
      split at h
      · next hc =>
        cases h
        refine ⟨[c], b, rfl, (writtenFrom_cons_of_lt hc).2 ⟨rfl, rfl, ?_⟩⟩
        unfold limit at hv
        omega
      · next hc =>
        obtain ⟨w, rest, rfl, hw⟩ := ih ht' h.symm
        exact ⟨c :: w, rest, rfl, (writtenFrom_cons_of_le (Nat.le_of_not_lt hc)).2 hw⟩

private theorem readOnto_starved {v n k : Nat} {x u : Bytes} {s : Stream}
    (hw : WrittenFrom v n (x ++ u)) (hu : u ≠ []) (hs : s.Holds k x .ended) :
    ∃ t, readOnto v s = (.error .shortRead, t) := by
  induction x generalizing v k s with
  | nil => exact readOnto_nil v hs
  | cons c x ih =>
    have hv : ¬ limit ≤ v := Nat.not_le.2 (lt_limit_of_writtenFrom hw)
    obtain ⟨t, ht, hr⟩ := readOnto_cons v hs
    rw [if_neg hv] at hr
    by_cases hc : c.toNat < 128
    · obtain ⟨hnil, -⟩ := (writtenFrom_cons_of_lt hc).1 hw
      exact absurd (List.append_eq_nil_iff.1 hnil).2 hu
    · rw [if_neg hc] at hr
      obtain ⟨t', hr'⟩ := ih ((writtenFrom_cons_of_le (Nat.le_of_not_lt hc)).1 hw) ht
      exact ⟨t', hr.trans hr'⟩

theorem accepts_varint : Decoder.varint.Accepts Written where
  complete := by
    intro n w rest s k e hw hs
    obtain ⟨t, hr, ht⟩ := readOnto_complete hw hs
    exact ⟨t, by simp [Decoder.varint, Decoder.ofRead, read, hr], ht⟩
  sound := by
    intro n b s t k e hs hd
    simp only [Decoder.varint, Decoder.ofRead, read] at hd
    split at hd
    · next hr => cases hd; exact readOnto_sound hs hr
    · cases hd
  starved := by
    intro n x u s k hw hu hs
    obtain ⟨t, hr⟩ := readOnto_starved hw hu hs
    exact ⟨.shortRead, t, by simp [Decoder.varint, Decoder.ofRead, read, hr], rfl⟩

/-! ## Writing -/

private theorem valueFrom_leading (n : Nat) : valueFrom 0 (leading n) = n := by
  fun_induction leading n with
  | case1 => rfl
  | case2 n hn ih =>
    have hg : (UInt8.ofNat (n % 128 + 128)).toNat % 128 = n % 128 := by
      rw [UInt8.toNat_ofNat']
      omega
    unfold valueFrom at ih ⊢
    rw [List.foldl_append, ih, List.foldl_cons, List.foldl_nil, hg]
    omega

private theorem le_of_mem_leading {n : Nat} {g : UInt8} (hg : g ∈ leading n) : 128 ≤ g.toNat := by
  fun_induction leading n with
  | case1 => simp at hg
  | case2 n hn ih =>
    rcases List.mem_append.1 hg with h | h
    · exact ih h
    · rw [List.mem_singleton.1 h, UInt8.toNat_ofNat']
      omega

theorem groups_encode (n : Nat) : Groups n (encode n) := by
  have hlast : (UInt8.ofNat (n % 128)).toNat = n % 128 := by
    rw [UInt8.toNat_ofNat']
    omega
  refine ⟨leading (n / 128), UInt8.ofNat (n % 128), rfl, fun g => le_of_mem_leading, ?_, ?_⟩
  · omega
  · have h := valueFrom_leading (n / 128)
    unfold valueFrom at h
    rw [valueFrom, encode, List.foldl_append, h, List.foldl_cons, List.foldl_nil, hlast]
    omega

theorem written_encode {n : Nat} (hn : n < 2 ^ 64) : Written n (encode n) := by
  obtain ⟨groups, last, hw, hgroups, hlast, hval⟩ := groups_encode n
  exact ⟨groups, last, hw, hgroups, hlast, hval, hn⟩

/-- A larger number has at least as many groups. -/
private theorem length_leading_mono {m n : Nat} (h : m ≤ n) :
    (leading m).length ≤ (leading n).length := by
  fun_induction leading n generalizing m with
  | case1 =>
    obtain rfl := Nat.le_zero.1 h
    exact Nat.le_of_eq (by rw [leading, if_pos rfl])
  | case2 n hn ih =>
    rw [leading]
    split
    · exact Nat.zero_le _
    · rw [List.length_append, List.length_append]
      exact Nat.add_le_add_right (ih (Nat.div_le_div_right h)) 1

theorem length_encode_mono {m n : Nat} (h : m ≤ n) : (encode m).length ≤ (encode n).length := by
  rw [encode, encode, List.length_append, List.length_append]
  exact Nat.add_le_add_right (length_leading_mono (Nat.div_le_div_right h)) 1

/-! ## The shortest form -/

/-- Groups of a value that are all continued are at least as many as are written for it, and are
those if they are not more. -/
private theorem leading_shortest {n : Nat} {gs : Bytes} (hgs : ∀ g ∈ gs, 128 ≤ g.toNat)
    (hn : valueFrom 0 gs = n) :
    (leading n).length ≤ gs.length ∧ (gs.length ≤ (leading n).length → leading n = gs) := by
  induction gs using List.reverseRecOn generalizing n with
  | nil =>
    have hnil : leading n = [] := by
      rw [leading, if_pos (show n = 0 from hn.symm)]
    exact ⟨Nat.le_of_eq (congrArg List.length hnil), fun _ => hnil⟩
  | append_singleton gs g ih =>
    have hval : valueFrom 0 gs * 128 + g.toNat % 128 = n := by
      rw [← hn]
      simp [valueFrom]
    rw [leading]
    split
    · exact ⟨Nat.zero_le _, fun h => by simp at h⟩
    · have hg := hgs g (by simp)
      have hlt := g.toNat_lt
      have hlast : UInt8.ofNat (n % 128 + 128) = g := by
        apply UInt8.toNat_inj.1
        rw [UInt8.toNat_ofNat']
        omega
      have hdiv : valueFrom 0 gs = n / 128 := by omega
      obtain ⟨hle, heq⟩ := ih (fun x hx => hgs x (by simp [hx])) hdiv
      rw [hlast, List.length_append, List.length_append]
      exact ⟨Nat.add_le_add_right hle _, fun h => by rw [heq (Nat.le_of_add_le_add_right h)]⟩

/-- No form of a number is shorter than the one that is written, and no other one is as short. -/
theorem encode_shortest {n : Nat} {w : Bytes} (h : Groups n w) :
    (encode n).length ≤ w.length ∧ (w.length ≤ (encode n).length → encode n = w) := by
  obtain ⟨groups, last, rfl, hgroups, hlast, hval⟩ := h
  have hval : valueFrom 0 groups * 128 + last.toNat % 128 = n := by
    rw [← hval]
    simp [valueFrom]
  have hdiv : valueFrom 0 groups = n / 128 := by omega
  have hbyte : UInt8.ofNat (n % 128) = last := by
    apply UInt8.toNat_inj.1
    rw [UInt8.toNat_ofNat']
    omega
  obtain ⟨hle, heq⟩ := leading_shortest hgroups hdiv
  rw [encode, hbyte, List.length_append, List.length_append]
  exact ⟨Nat.add_le_add_right hle _, fun h => by rw [heq (Nat.le_of_add_le_add_right h)]⟩

/-- A form of a number that is as short as any other. -/
def Shortest (w : Bytes) : Prop :=
  ∃ n, Written n w ∧ ∀ w', Written n w' → w.length ≤ w'.length

theorem shortest_iff {n : Nat} {w : Bytes} (h : Written n w) : Shortest w ↔ encode n = w := by
  constructor
  · rintro ⟨m, hm, hw⟩
    obtain ⟨rfl, -, -⟩ := prefixFree_groups hm.groups h.groups (rfl : w ++ [] = w ++ [])
    obtain ⟨_, _, -, -, -, -, hlt⟩ := h
    exact (encode_shortest hm.groups).2 (hw _ (written_encode hlt))
  · rintro rfl
    exact ⟨n, h, fun w' hw' => (encode_shortest hw'.groups).1⟩

end CollectionDelta.Varint
