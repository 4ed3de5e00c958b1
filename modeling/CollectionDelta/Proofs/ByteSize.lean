import CollectionDelta.Bytes
import CollectionDelta.ByteSize
import Mathlib.Algebra.Group.Nat.Defs
import Mathlib.Data.List.Basic

/-!
Sizes are read exactly below 2^64.

* `Blank.exists_trim`, `Blank.trim_append`: what trimming takes away, and what it leaves.
* `Bytes.ofText_push`: the bytes of the last character; `Bytes.le_last_utf8EncodeChar` says that the
  last of several is no ASCII character.
* `ByteSize.Numeral`, `ByteSize.Suffix`, `ByteSize.Spells`: how a size is written, as a number and
  the factor that the unit behind it stands for.
* `ByteSize.number_numeral`, `ByteSize.numeral_of_number`: which texts are read as numbers.
* `ByteSize.splitUnit_cases`: a text without its unit; `ByteSize.cutLastByte?_eq` says that the unit
  may as well be cut off as a byte.
* `ByteSize.Refused`: why a text stands for no size; `exists_refused` says that a reason is told
  wherever there is no product below 2^64.
* `ByteSize.parse_exact`: which texts are sizes, and which size each of them is.
-/

namespace CollectionDelta

namespace Blank

/-! ## White space at the ends -/

def AllBlank (s : List Char) : Prop := ∀ c ∈ s, isBlank c = true

theorem allBlank_takeWhile (s : List Char) : AllBlank (s.takeWhile isBlank) :=
  List.all_eq_true.1 List.all_takeWhile

theorem AllBlank.append {s t : List Char} (hs : AllBlank s) (ht : AllBlank t) :
    AllBlank (s ++ t) := List.forall_mem_append.2 ⟨hs, ht⟩

theorem AllBlank.reverse {s : List Char} (h : AllBlank s) : AllBlank s.reverse :=
  fun c hc => h c (List.mem_reverse.1 hc)

/-- Only white space is taken away. -/
theorem exists_trim (s : List Char) : ∃ before after, s = before ++ trim s ++ after ∧
    AllBlank before ∧ AllBlank after := by
  let rest := s.dropWhile isBlank
  let after := (rest.reverse.takeWhile isBlank).reverse
  have hrest : trim s ++ after = rest := by
    rw [trim, ← List.reverse_append, List.takeWhile_append_dropWhile, List.reverse_reverse]
  refine ⟨s.takeWhile isBlank, after, ?_, allBlank_takeWhile s, (allBlank_takeWhile _).reverse⟩
  rw [List.append_assoc, hrest, List.takeWhile_append_dropWhile]

theorem trim_eq_nil_iff {s : List Char} : trim s = [] ↔ AllBlank s := by
  constructor
  · intro hnil
    obtain ⟨before, after, hs, hb, ha⟩ := exists_trim s
    rw [hnil, List.append_nil] at hs
    exact hs ▸ hb.append ha
  · intro h
    have hdrop : (s ++ []).dropWhile isBlank = [] := List.dropWhile_append_of_pos h
    rw [List.append_nil] at hdrop
    rw [trim, hdrop]
    rfl

theorem dropWhile_isBlank_append {before body : List Char} {c : Char} (hb : AllBlank before)
    (hhead : body.head? = some c) (hc : isBlank c = false) :
    (before ++ body).dropWhile isBlank = body := by
  obtain ⟨body, rfl⟩ := List.head?_eq_some_iff.1 hhead
  rw [List.dropWhile_append_of_pos hb, List.dropWhile_cons_of_neg (by simp [hc])]

/-- Nothing is left of the white space around a text that begins and ends otherwise. -/
theorem trim_append {before body after : List Char} {c d : Char} (hb : AllBlank before)
    (ha : AllBlank after) (hhead : body.head? = some c) (hc : isBlank c = false)
    (hlast : body.getLast? = some d) (hd : isBlank d = false) :
    trim (before ++ body ++ after) = body := by
  have hfront : (body ++ after).head? = some c := by rw [List.head?_append, hhead, Option.some_or]
  have hback : body.reverse.head? = some d := by rw [List.head?_reverse, hlast]
  rw [trim, List.append_assoc, dropWhile_isBlank_append hb hfront hc, List.reverse_append,
    dropWhile_isBlank_append ha.reverse hback hd, List.reverse_reverse]

end Blank

namespace Bytes

/-! ## The last character of a text -/

theorem ofText_push (t : String) (c : Char) :
    ofText (t.push c) = ofText t ++ String.utf8EncodeChar c := by
  rw [ofText, String.toByteArray_push, List.utf8Encode_singleton, ByteArray.data_append,
    Array.toList_append, List.toList_data_toByteArray]
  rfl

theorem utf8EncodeChar_ascii {c : Char} (h : c.toNat < 128) :
    String.utf8EncodeChar c = [UInt8.ofNat c.toNat] := by
  have h : c.val.toNat ≤ 127 := Nat.le_of_lt_succ h
  exact if_pos h

theorem le_last_utf8EncodeChar {c : Char} (h : 128 ≤ c.toNat) {b : UInt8}
    (hb : (String.utf8EncodeChar c).getLast? = some b) : 128 ≤ b.toNat := by
  have h : ¬ c.val.toNat ≤ 127 := Nat.not_le.2 h
  have hlast : ∃ v, b = UInt8.ofNat (v % 64 + 128) := by
    refine ⟨c.val.toNat, ?_⟩
    unfold String.utf8EncodeChar at hb
    simp only [h, if_false] at hb
    split at hb
    · simpa using hb.symm
    · split at hb
      · simpa using hb.symm
      · simpa using hb.symm
  obtain ⟨v, rfl⟩ := hlast
  rw [UInt8.toNat_ofNat']
  omega

end Bytes

namespace ByteSize
open Blank

/-! ## Numbers -/

theorem not_blank_of_isDigit {c : Char} (h : c.isDigit = true) : isBlank c = false := by
  obtain ⟨hlow, hhigh⟩ := Char.isDigit_iff_toNat.1 h
  have hlow : 48 ≤ c.toNat := hlow
  have hhigh : c.toNat ≤ 57 := hhigh
  rw [Bool.eq_false_iff]
  intro hblank
  simp only [isBlank, Bool.or_eq_true, Bool.and_eq_true, decide_eq_true_eq, beq_iff_eq] at hblank
  omega

def Digits (s : List Char) : Prop := s ≠ [] ∧ ∀ c ∈ s, c.isDigit = true

/-- One digit or more, and at most a plus sign before them. -/
inductive Numeral : List Char → Nat → Prop
  | bare {ds : List Char} (h : Digits ds) : Numeral ds (Nat.ofDigitChars 10 ds 0)
  | signed {ds : List Char} (h : Digits ds) : Numeral ('+' :: ds) (Nat.ofDigitChars 10 ds 0)

theorem le_ofDigitChars (v : Nat) (ds : List Char) : v ≤ Nat.ofDigitChars 10 ds v := by
  rw [Nat.ofDigitChars_eq_ofDigitChars_zero]
  calc v ≤ 10 ^ ds.length * v := Nat.le_mul_of_pos_left v (Nat.pow_pos (by decide))
    _ ≤ _ := Nat.le_add_right ..

/-- The bound is passed by the value of all digits if it is passed at one of them. -/
theorem readDigits_digits {ds : List Char} (h : ∀ c ∈ ds, c.isDigit = true) {bound v : Nat}
    (hv : v < bound) : readDigits bound v ds =
      if Nat.ofDigitChars 10 ds v < bound then .ok (Nat.ofDigitChars 10 ds v)
      else .error .tooLarge := by
  induction ds generalizing v with
  | nil => simp [readDigits, hv]
  | cons d ds ih =>
    obtain ⟨hd, hds⟩ := List.forall_mem_cons.1 h
    rw [readDigits, if_pos hd, Nat.ofDigitChars_cons]
    by_cases hlt : 10 * v + (d.toNat - '0'.toNat) < bound
    · rw [if_pos hlt, ih hds hlt]
    · have hle := le_ofDigitChars (10 * v + (d.toNat - '0'.toNat)) ds
      rw [if_neg hlt, if_neg (by omega)]

theorem isDigit_of_readDigits {ds : List Char} {bound v n : Nat}
    (h : readDigits bound v ds = .ok n) : ∀ c ∈ ds, c.isDigit = true := by
  induction ds generalizing v with
  | nil => exact nofun
  | cons d ds ih =>
    rw [readDigits] at h
    split at h
    · next hd =>
      dsimp only at h
      split at h
      · exact List.forall_mem_cons.2 ⟨hd, ih h⟩
      · cases h
    · cases h

theorem number_numeral {s : List Char} {n bound : Nat} (h : Numeral s n) (hb : 0 < bound) :
    number bound s = if n < bound then .ok n else .error .tooLarge := by
  cases h with
  | bare h =>
    obtain ⟨hne, hds⟩ := h
    rw [← readDigits_digits hds hb]
    unfold number
    -- no digit is a plus sign, so that all of the text is read as digits
    split
    · exact absurd rfl hne
    · exact absurd (hds '+' (List.mem_cons_self ..)) (by decide)
    · exact absurd (hds '+' (List.mem_cons_self ..)) (by decide)
    · rfl
  | signed h =>
    obtain ⟨hne, hds⟩ := h
    rw [← readDigits_digits hds hb]
    unfold number
    split
    · next h => cases h
    · next h => exact absurd (List.cons.inj h).2 hne
    · next h => rw [(List.cons.inj h).2]
    · next hplus => exact absurd rfl (hplus _)

theorem numeral_of_number {s : List Char} {n bound : Nat} (h : number bound s = .ok n)
    (hb : 0 < bound) : Numeral s n := by
  have hvalue : ∀ {ds : List Char}, readDigits bound 0 ds = .ok n →
      n = Nat.ofDigitChars 10 ds 0 := by
    intro ds hds
    rw [readDigits_digits (isDigit_of_readDigits hds) hb] at hds
    split at hds
    · exact (Except.ok.inj hds).symm
    · cases hds
  unfold number at h
  split at h
  · cases h
  · cases h
  · next hne =>
    rw [hvalue h]
    exact .signed ⟨hne, isDigit_of_readDigits h⟩
  · next hne _ _ =>
    rw [hvalue h]
    exact .bare ⟨hne, isDigit_of_readDigits h⟩

/-! ## Units -/

inductive Letter : Char → Nat → Prop
  | kilo {u : Char} (hu : u = 'k' ∨ u = 'K') : Letter u (2 ^ 10)
  | mega {u : Char} (hu : u = 'm' ∨ u = 'M') : Letter u (2 ^ 20)
  | giga {u : Char} (hu : u = 'g' ∨ u = 'G') : Letter u (2 ^ 30)

/-- What stands behind a number, and the factor that it stands for. -/
inductive Suffix : List Char → Nat → Prop
  | none : Suffix [] 1
  | unit {gap : List Char} {u : Char} {f : Nat} (hgap : AllBlank gap) (hu : Letter u f) :
      Suffix (gap ++ [u]) f

theorem factor?_eq_some_iff {u : Char} {f : Nat} : factor? u = some f ↔ Letter u f := by
  constructor
  · intro h
    unfold factor? at h
    split at h <;> cases h
    · exact .kilo (.inl rfl)
    · exact .kilo (.inr rfl)
    · exact .mega (.inl rfl)
    · exact .mega (.inr rfl)
    · exact .giga (.inl rfl)
    · exact .giga (.inr rfl)
  · rintro (hu | hu | hu) <;> rcases hu with rfl | rfl <;> rfl

theorem Letter.lt_128 {u : Char} {f : Nat} (h : Letter u f) : u.toNat < 128 := by
  rcases h with hu | hu | hu <;> rcases hu with rfl | rfl <;> decide

theorem Letter.not_blank {u : Char} {f : Nat} (h : Letter u f) : isBlank u = false := by
  rcases h with hu | hu | hu <;> rcases hu with rfl | rfl <;> decide

theorem Letter.not_digit {u : Char} {f : Nat} (h : Letter u f) : u.isDigit = false := by
  rcases h with hu | hu | hu <;> rcases hu with rfl | rfl <;> decide

theorem Numeral.exists_head {s : List Char} {n : Nat} (h : Numeral s n) :
    ∃ c, s.head? = some c ∧ isBlank c = false := by
  cases h with
  | bare h =>
    obtain ⟨hne, hds⟩ := h
    have hhead := not_blank_of_isDigit (hds _ (List.head_mem hne))
    exact ⟨s.head hne, List.head?_eq_some_head hne, hhead⟩
  | signed h => exact ⟨'+', rfl, by decide⟩

theorem Numeral.exists_last {s : List Char} {n : Nat} (h : Numeral s n) :
    ∃ d, s.getLast? = some d ∧ d.isDigit = true := by
  have hdigits : ∀ {ds : List Char}, Digits ds → ∃ d, ds.getLast? = some d ∧ d.isDigit = true :=
    fun h => ⟨_, List.getLast?_eq_some_getLast h.1, h.2 _ (List.getLast_mem h.1)⟩
  cases h with
  | bare h => exact hdigits h
  | signed h =>
    obtain ⟨d, hd, hdigit⟩ := hdigits h
    exact ⟨d, by rw [List.getLast?_cons, hd, Option.getD_some], hdigit⟩

theorem splitUnit_unit (front : List Char) {u : Char} {f : Nat} (hu : Letter u f) :
    splitUnit (front ++ [u]) = (front, f) := by
  have hf : ((front ++ [u]).getLast?.bind factor?) = some f := by
    rw [List.getLast?_concat, Option.bind_some, factor?_eq_some_iff.2 hu]
  rw [splitUnit, hf, List.dropLast_concat]

theorem splitUnit_none {s : List Char} (h : ∀ u f, s.getLast? = some u → ¬Letter u f) :
    splitUnit s = (s, 1) := by
  unfold splitUnit
  split
  · next f hf =>
    obtain ⟨u, hlast, hu⟩ := Option.bind_eq_some_iff.1 hf
    exact absurd (factor?_eq_some_iff.1 hu) (h u f hlast)
  · rfl

theorem splitUnit_cases (s : List Char) : (splitUnit s = (s, 1)) ∨
    ∃ front u f, s = front ++ [u] ∧ Letter u f ∧ splitUnit s = (front, f) := by
  by_cases h : ∃ u f, s.getLast? = some u ∧ Letter u f
  · obtain ⟨u, f, hlast, hu⟩ := h
    obtain ⟨front, rfl⟩ := List.getLast?_eq_some_iff.1 hlast
    exact .inr ⟨front, u, f, rfl, hu, splitUnit_unit front hu⟩
  · exact .inl (splitUnit_none fun u f hlast hu => h ⟨u, f, hlast, hu⟩)

theorem splitUnit_numeral {num suffix : List Char} {n f : Nat} (hnum : Numeral num n)
    (hsuffix : Suffix suffix f) :
    ∃ gap, AllBlank gap ∧ splitUnit (num ++ suffix) = (num ++ gap, f) := by
  cases hsuffix with
  | none =>
    obtain ⟨d, hd, hdigit⟩ := hnum.exists_last
    refine ⟨[], nofun, ?_⟩
    rw [List.append_nil, splitUnit_none]
    intro u f hlast hu
    rw [hd] at hlast
    cases hlast
    rw [hu.not_digit] at hdigit
    cases hdigit
  | @unit gap u f hgap hu => exact ⟨gap, hgap, by rw [← List.append_assoc, splitUnit_unit _ hu]⟩

/-! ## The unit as a byte -/

/-- The text before its last byte, with the factor, if this byte is the letter of a unit; nothing if
the cut is made inside a character. -/
def cutLastByte? (t : String) : Option (String × Nat) :=
  match (Bytes.ofText t).getLast?.bind fun b => factor? (Char.ofUInt8 b) with
  | some f => (Bytes.text? (Bytes.ofText t).dropLast).map fun front => (front, f)
  | none => some (t, 1)

theorem toNat_ofUInt8 (b : UInt8) : (Char.ofUInt8 b).toNat = b.toNat := UInt8.toNat_toUInt32 b

/-- No other character ends in the byte of a letter. -/
theorem factor?_lastByte (c : Char) :
    ((String.utf8EncodeChar c).getLast?.bind fun b => factor? (Char.ofUInt8 b)) = factor? c := by
  by_cases hc : c.toNat < 128
  · have hchar : Char.ofUInt8 (UInt8.ofNat c.toNat) = c := by
      apply Char.toNat_inj.1
      rw [toNat_ofUInt8, UInt8.toNat_ofNat_of_lt' (Nat.lt_trans hc (by decide))]
    rw [Bytes.utf8EncodeChar_ascii hc, List.getLast?_singleton, Option.bind_some, hchar]
  · have hnone : ∀ {c : Char}, ¬c.toNat < 128 → factor? c = none := fun h =>
      Option.eq_none_iff_forall_ne_some.2 fun f hf => h (factor?_eq_some_iff.1 hf).lt_128
    rw [hnone hc, Option.bind_eq_none_iff]
    intro b hb
    apply hnone
    rw [toNat_ofUInt8]
    exact Nat.not_lt.2 (Bytes.le_last_utf8EncodeChar (Nat.le_of_not_lt hc) hb)

/-- The cut is never made inside a character, and leaves the text without its unit. -/
theorem cutLastByte?_eq (t : String) : cutLastByte? t =
    some (String.ofList (splitUnit t.toList).1, (splitUnit t.toList).2) := by
  rcases t.toList.eq_nil_or_concat with hnil | ⟨front, c, ht⟩
  · rw [String.toList_eq_nil_iff] at hnil
    subst hnil
    rfl
  · obtain rfl : t = (String.ofList front).push c := by
      apply String.toList_inj.1
      rw [ht, String.toList_push, String.toList_ofList, List.concat_eq_append]
    have hlast : (Bytes.ofText ((String.ofList front).push c)).getLast? =
        (String.utf8EncodeChar c).getLast? := by
      rw [Bytes.ofText_push, List.getLast?_append_of_ne_nil _ String.utf8EncodeChar_ne_nil]
    rw [cutLastByte?, hlast, factor?_lastByte, String.toList_push, String.toList_ofList]
    cases hf : factor? c with
    | none =>
      have hnone : ∀ u f, (front ++ [c]).getLast? = some u → ¬Letter u f := by
        intro u f hu hletter
        rw [List.getLast?_concat, Option.some.injEq] at hu
        subst hu
        rw [factor?_eq_some_iff.2 hletter] at hf
        cases hf
      rw [splitUnit_none hnone]
      simp
    | some f =>
      have hu := factor?_eq_some_iff.1 hf
      rw [splitUnit_unit front hu, Bytes.ofText_push, Bytes.utf8EncodeChar_ascii hu.lt_128,
        List.dropLast_concat, Bytes.text?_ofText]
      rfl

/-! ## Sizes -/

/-- A number and perhaps a unit behind it, with blanks around them and in between. -/
def Spells (s : String) (n f : Nat) : Prop :=
  ∃ before num suffix after, s.toList = before ++ (num ++ suffix) ++ after ∧
    AllBlank before ∧ AllBlank after ∧ Numeral num n ∧ Suffix suffix f

def trimmed (s : String) : String := String.ofList (trim s.toList)

/-- Why a text stands for no size. -/
inductive Refused (s : String) : SizeError → Prop
  | blank (h : AllBlank s.toList) : Refused s .empty
  | product {n f : Nat} (h : Spells s n f) (hn : n < 2 ^ 64) (hle : 2 ^ 64 ≤ n * f) :
      Refused s (.overflow (trimmed s))
  | number {n f : Nat} (h : Spells s n f) (hn : 2 ^ 64 ≤ n) :
      Refused s (.badNumber (trimmed s) .tooLarge)
  | misspelt {cause : NumberError} (hne : ¬AllBlank s.toList) (h : ∀ n f, ¬Spells s n f) :
      Refused s (.badNumber (trimmed s) cause)

theorem trim_spelled {before num suffix after : List Char} {n f : Nat} (hb : AllBlank before)
    (ha : AllBlank after) (hnum : Numeral num n) (hsuffix : Suffix suffix f) :
    trim (before ++ (num ++ suffix) ++ after) = num ++ suffix := by
  obtain ⟨c, hhead, hc⟩ := hnum.exists_head
  have hhead : (num ++ suffix).head? = some c := by rw [List.head?_append, hhead, Option.some_or]
  cases hsuffix with
  | none =>
    obtain ⟨d, hlast, hd⟩ := hnum.exists_last
    exact trim_append hb ha hhead hc (by rwa [List.append_nil]) (not_blank_of_isDigit hd)
  | @unit gap u f hgap hu =>
    exact trim_append hb ha hhead hc (by rw [← List.append_assoc, List.getLast?_concat])
      hu.not_blank

theorem trim_numeral {num gap : List Char} {n : Nat} (hnum : Numeral num n)
    (hgap : AllBlank gap) : trim (num ++ gap) = num := by
  have hnil : AllBlank [] := nofun
  have h := trim_spelled hnil hgap hnum .none
  rwa [List.append_nil, List.nil_append] at h

theorem Suffix.pos {suffix : List Char} {f : Nat} (h : Suffix suffix f) : 0 < f := by
  rcases h with _ | ⟨-, hu | hu | hu⟩ <;> decide

section
variable {s : String} {front : List Char} {n f : Nat}

theorem parse_of_number_error {e : NumberError} (hne : trim s.toList ≠ [])
    (hsplit : splitUnit (trim s.toList) = (front, f)) (h : number bound (trim front) = .error e) :
    parse s = .error (.badNumber (trimmed s) e) := by
  simp only [parse, if_neg hne, hsplit, h]
  rfl

theorem parse_of_number (hne : trim s.toList ≠ [])
    (hsplit : splitUnit (trim s.toList) = (front, f)) (h : number bound (trim front) = .ok n) :
    parse s = if n * f < 2 ^ 64 then .ok (n * f) else .error (.overflow (trimmed s)) := by
  simp only [parse, if_neg hne, hsplit, h]
  rfl

/-- White space taken away by the second trimming stood around the text, or before its unit. -/
theorem spells_of_number (hsplit : splitUnit (trim s.toList) = (front, f))
    (h : number bound (trim front) = .ok n) : Spells s n f := by
  have hnum := numeral_of_number h (by decide)
  obtain ⟨before, after, hs, hb, ha⟩ := exists_trim s.toList
  obtain ⟨start, gap, hfront, hstart, hgap⟩ := exists_trim front
  rcases splitUnit_cases (trim s.toList) with hcase | ⟨front', u, f', htrim, hu, hcase⟩
  · obtain ⟨rfl, rfl⟩ := Prod.mk.inj (hsplit.symm.trans hcase)
    refine ⟨before ++ start, _, [], gap ++ after, ?_, hb.append hstart, hgap.append ha, hnum, .none⟩
    calc s.toList = before ++ trim s.toList ++ after := hs
      _ = before ++ (start ++ trim (trim s.toList) ++ gap) ++ after := by rw [← hfront]
      _ = _ := by simp only [List.append_assoc, List.append_nil]
  · obtain ⟨rfl, rfl⟩ := Prod.mk.inj (hsplit.symm.trans hcase)
    refine ⟨before ++ start, _, gap ++ [u], after, ?_, hb.append hstart, ha, hnum, .unit hgap hu⟩
    calc s.toList = before ++ (front ++ [u]) ++ after := by rw [← htrim, ← hs]
      _ = before ++ (start ++ trim front ++ gap ++ [u]) ++ after := by rw [← hfront]
      _ = _ := by simp only [List.append_assoc]

theorem exists_splitUnit_of_spells (h : Spells s n f) : ∃ front, trim s.toList ≠ [] ∧
    splitUnit (trim s.toList) = (front, f) ∧
    number bound (trim front) = if n < 2 ^ 64 then .ok n else .error .tooLarge := by
  obtain ⟨before, num, suffix, after, hs, hb, ha, hnum, hsuffix⟩ := h
  obtain ⟨gap, hgap, hsplit⟩ := splitUnit_numeral hnum hsuffix
  rw [hs, trim_spelled hb ha hnum hsuffix]
  refine ⟨num ++ gap, ?_, hsplit, ?_⟩
  · obtain ⟨c, hhead, -⟩ := hnum.exists_head
    intro hnil
    rw [(List.append_eq_nil_iff.1 hnil).1] at hhead
    cases hhead
  · rw [trim_numeral hnum hgap]
    exact number_numeral hnum (by decide)

theorem parse_eq_ok_of_spells (h : Spells s n f) (hlt : n * f < 2 ^ 64) :
    parse s = .ok (n * f) := by
  -- a factor is at least one, so that a product that fits belongs to a number that fits
  have hn : n < 2 ^ 64 := by
    obtain ⟨_, _, _, _, -, -, -, -, hsuffix⟩ := h
    exact Nat.lt_of_le_of_lt (Nat.le_mul_of_pos_right n hsuffix.pos) hlt
  obtain ⟨front, hne, hsplit, hnumber⟩ := exists_splitUnit_of_spells h
  rw [if_pos hn] at hnumber
  rw [parse_of_number hne hsplit hnumber, if_pos hlt]

theorem refused_of_spells (h : Spells s n f) (hle : 2 ^ 64 ≤ n * f) :
    ∃ e, parse s = .error e ∧ Refused s e := by
  obtain ⟨front, hne, hsplit, hnumber⟩ := exists_splitUnit_of_spells h
  by_cases hn : n < 2 ^ 64
  · rw [if_pos hn] at hnumber
    refine ⟨_, ?_, .product h hn hle⟩
    rw [parse_of_number hne hsplit hnumber, if_neg (Nat.not_lt.2 hle)]
  · rw [if_neg hn] at hnumber
    exact ⟨_, parse_of_number_error hne hsplit hnumber, .number h (Nat.le_of_not_lt hn)⟩

theorem refused_of_not_spells (h : ∀ n f, ¬Spells s n f) :
    ∃ e, parse s = .error e ∧ Refused s e := by
  by_cases hblank : AllBlank s.toList
  · exact ⟨.empty, if_pos (trim_eq_nil_iff.2 hblank), .blank hblank⟩
  · have hne : trim s.toList ≠ [] := fun hnil => hblank (trim_eq_nil_iff.1 hnil)
    cases hnumber : number bound (trim (splitUnit (trim s.toList)).1) with
    | error e => exact ⟨_, parse_of_number_error hne rfl hnumber, .misspelt hblank h⟩
    | ok n => exact absurd (spells_of_number rfl hnumber) (h n _)

theorem exists_refused (h : ∀ n f, Spells s n f → 2 ^ 64 ≤ n * f) :
    ∃ e, parse s = .error e ∧ Refused s e := by
  by_cases hs : ∃ n f, Spells s n f
  · obtain ⟨n, f, hs⟩ := hs
    exact refused_of_spells hs (h n f hs)
  · exact refused_of_not_spells fun n f hsp => hs ⟨n, f, hsp⟩

end

/-- A text is a size if and only if it spells a number and a factor with a product below 2^64, and
then it is that product: neither the number nor the product wraps. Every other text is refused, and
the letter of the unit is always a whole character, so that it can be cut off as a byte. -/
theorem parse_exact (s : String) :
    (∀ v, parse s = .ok v ↔ ∃ n f, Spells s n f ∧ n * f < 2 ^ 64 ∧ v = n * f) ∧
    ((∀ n f, Spells s n f → 2 ^ 64 ≤ n * f) → ∃ e, parse s = .error e ∧ Refused s e) ∧
    cutLastByte? (trimmed s) =
      some (String.ofList (splitUnit (trim s.toList)).1, (splitUnit (trim s.toList)).2) := by
  refine ⟨fun v => ⟨fun hv => ?_, ?_⟩, exists_refused, ?_⟩
  · by_cases h : ∃ n f, Spells s n f ∧ n * f < 2 ^ 64
    · obtain ⟨n, f, h, hlt⟩ := h
      rw [parse_eq_ok_of_spells h hlt] at hv
      exact ⟨n, f, h, hlt, (Except.ok.inj hv).symm⟩
    · obtain ⟨e, he, -⟩ := exists_refused fun n f hs =>
        Nat.le_of_not_lt fun hlt => h ⟨n, f, hs, hlt⟩
      rw [he] at hv
      cases hv
  · rintro ⟨n, f, h, hlt, rfl⟩
    exact parse_eq_ok_of_spells h hlt
  · have hcut := cutLastByte?_eq (trimmed s)
    rwa [trimmed, String.toList_ofList] at hcut

/-- The largest number of units of the third kind, with white space and zeros where they may be. -/
theorem parse_exact_padded : parse "\u3000+0017179869183 G\n" = .ok (2 ^ 64 - 2 ^ 30) := by
  have hbefore : AllBlank "\u3000".toList := List.all_eq_true.1 (by decide)
  have hgap : AllBlank [' '] := List.all_eq_true.1 (by decide)
  have hafter : AllBlank "\n".toList := List.all_eq_true.1 (by decide)
  have hdigits : Digits "0017179869183".toList := ⟨by decide, List.all_eq_true.1 (by decide)⟩
  obtain ⟨hok, -⟩ := parse_exact "\u3000+0017179869183 G\n"
  refine (hok _).2 ⟨17179869183, 2 ^ 30, ?_, by decide, rfl⟩
  exact ⟨_, _, _, _, rfl, hbefore, hafter, .signed hdigits, .unit hgap (.giga (.inr rfl))⟩

example : parse "17179869184 G" = .error (.overflow "17179869184 G") := by decide +kernel

end ByteSize
end CollectionDelta
