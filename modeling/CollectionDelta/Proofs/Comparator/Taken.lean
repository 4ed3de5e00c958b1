import CollectionDelta.Proofs.Comparator
import Mathlib.Data.List.Infix

/-!
How much of two streams a comparison reads.

* `LongestCommon`: the longest common prefix of two contents; `LongestCommon.of_append` takes equal
  bytes off their fronts, and `LongestCommon.length_lt` bounds it by a chunk that differs.
* `reach`, `LeftAfter`: the bytes up to the end of the chunk in which a position lies, and what is
  left of a stream that was read so far; `LongestCommon.after_chunk` adds a chunk to them.
* `equal_chunk`: one chunk of each stream; `equal_taken` is all of them.
* `comparison_taken`: the same for every chunk size and whatever the buffers hold.
-/

namespace CollectionDelta.Comparator

variable {b b' common : Bytes}

/-! ## Common prefixes -/

def LongestCommon (b b' common : Bytes) : Prop :=
  common <+: b ∧ common <+: b' ∧
    ∀ other, other <+: b → other <+: b' → other.length ≤ common.length

theorem LongestCommon.of_append {c : Bytes} (h : LongestCommon (c ++ b) (c ++ b') common) :
    ∃ more, common = c ++ more ∧ LongestCommon b b' more := by
  obtain ⟨hb, hb', hmax⟩ := h
  have hle : c.length ≤ common.length :=
    hmax c (List.prefix_append c b) (List.prefix_append c b')
  obtain ⟨more, rfl⟩ := List.prefix_of_prefix_length_le (List.prefix_append c b) hb hle
  refine ⟨more, rfl, ?_, ?_, fun other ho ho' => ?_⟩
  · exact (List.prefix_append_right_inj c).1 hb
  · exact (List.prefix_append_right_inj c).1 hb'
  · have hlen := hmax (c ++ other) ((List.prefix_append_right_inj c).2 ho)
      ((List.prefix_append_right_inj c).2 ho')
    rw [List.length_append, List.length_append] at hlen
    omega

theorem longestCommon_self_iff : LongestCommon b b common ↔ common = b := by
  constructor
  · rintro ⟨hb, -, hmax⟩
    exact hb.eq_of_length_le (hmax b (List.prefix_refl b) (List.prefix_refl b))
  · rintro rfl
    exact ⟨List.prefix_refl _, List.prefix_refl _, fun other ho _ => ho.length_le⟩

/-- Fronts that differ are longer than anything common. -/
theorem LongestCommon.length_lt {k : Nat} (h : LongestCommon b b' common)
    (hne : b.take k ≠ b'.take k) : common.length < k := by
  refine Nat.lt_of_not_le fun hle => hne ?_
  obtain ⟨⟨more, rfl⟩, ⟨more', rfl⟩, -⟩ := h
  rw [List.take_append_of_le_length hle, List.take_append_of_le_length hle]

/-! ## Chunks -/

/-- The end of the chunk of `size` bytes in which the position `p` lies. -/
def reach (size p : Nat) : Nat := size * (p / size + 1)

theorem reach_of_lt {size p : Nat} (h : p < size) : reach size p = size := by
  rw [reach, Nat.div_eq_of_lt h, Nat.zero_add, Nat.mul_one]

theorem reach_add {size p : Nat} (h : 0 < size) : reach size (size + p) = size + reach size p := by
  rw [reach, reach, Nat.add_div_left p h, Nat.mul_succ, Nat.add_comm]

theorem lt_reach {size p : Nat} (h : 0 < size) : p < reach size p :=
  Nat.lt_mul_div_succ p h

/-- What a comparison leaves of a stream that held `b`, if it reads on to `seen`. -/
abbrev LeftAfter (seen n : Nat) (b : Bytes) (t : Stream) : Prop :=
  t.Holds (n + min b.length seen) (b.drop seen) .ended

/-- A chunk that was read is part of all that is read. -/
theorem LeftAfter.add {k seen n : Nat} {t : Stream}
    (h : LeftAfter seen (n + min b.length k) (b.drop k) t) : LeftAfter (k + seen) n b t := by
  have hmin : n + min b.length k + min (b.drop k).length seen = n + min b.length (k + seen) := by
    rw [List.length_drop]
    omega
  rw [LeftAfter, hmin, List.drop_drop] at h
  exact h

/-- A stream that was read to its end has nothing more to give. -/
theorem LeftAfter.of_le {seen seen' n : Nat} {t : Stream} (h : LeftAfter seen n b t)
    (hle : b.length ≤ seen) (hle' : b.length ≤ seen') : LeftAfter seen' n b t := by
  rw [LeftAfter, Nat.min_eq_left hle, List.drop_eq_nil_of_le hle] at h
  rw [LeftAfter, Nat.min_eq_left hle', List.drop_eq_nil_of_le hle']
  exact h

/-- Equal chunks leave streams of which all that was read of the whole is still to be read. -/
theorem LongestCommon.after_chunk {k : Nat} (hk : 0 < k) (h : LongestCommon b b' common)
    (hsame : b.take k = b'.take k) : ∃ more, LongestCommon (b.drop k) (b'.drop k) more ∧
      ∀ {n n' : Nat} {t t' : Stream},
        LeftAfter (reach k more.length) (n + min b.length k) (b.drop k) t →
        LeftAfter (reach k more.length) (n' + min b'.length k) (b'.drop k) t' →
        LeftAfter (reach k common.length) n b t ∧ LeftAfter (reach k common.length) n' b' t' := by
  by_cases hfull : k ≤ b.length
  · rw [← List.take_append_drop k b, ← List.take_append_drop k b', ← hsame] at h
    obtain ⟨more, rfl, hmore⟩ := h.of_append
    refine ⟨more, hmore, fun ht ht' => ?_⟩
    rw [List.length_append, List.length_take_of_le hfull, reach_add hk]
    exact ⟨ht.add, ht'.add⟩
  · -- Both streams end in this chunk.
    have hlen := congrArg List.length hsame
    rw [List.length_take, List.length_take] at hlen
    have hshort : b.length ≤ k := Nat.le_of_not_le hfull
    have hshort' : b'.length ≤ k := by omega
    rw [List.take_of_length_le hshort, List.take_of_length_le hshort'] at hsame
    subst hsame
    obtain rfl := longestCommon_self_iff.1 h
    refine ⟨common.drop k, longestCommon_self_iff.2 rfl, fun ht ht' => ?_⟩
    have hle : common.length ≤ k + reach k (common.drop k).length := Nat.le_add_right_of_le hshort
    have hle' : common.length ≤ reach k common.length := Nat.le_of_lt (lt_reach hk)
    exact ⟨ht.add.of_le hle hle', ht'.add.of_le hle hle'⟩

/-- One chunk of each of two streams that do not fail: the comparison goes on if they are equal, and
not empty. -/
theorem equal_chunk (c : Comparator) {s s' : Stream} {n n' : Nat} (h : s.Holds n b .ended)
    (h' : s'.Holds n' b' .ended) :
    ∃ t t', t.Holds (n + min b.length c.chunk) (b.drop c.chunk) .ended ∧
      t'.Holds (n' + min b'.length c.chunk) (b'.drop c.chunk) .ended ∧
      ((b ≠ [] ∧ b.take c.chunk = b'.take c.chunk ∧ c.equal s s' = c.equal t t') ∨
        ((b = [] ∨ b.take c.chunk ≠ b'.take c.chunk) ∧
          ∃ answer, c.equal s s' = ⟨answer, t, t'⟩)) := by
  obtain ⟨t, hg, ht⟩ := Stream.gather_ended h c.chunk
  obtain ⟨t', hg', ht'⟩ := Stream.gather_ended h' c.chunk
  refine ⟨t, t', ht, ht', ?_⟩
  fun_cases c.equal s s' with
  | case1 f u hu => cases hu.symm.trans hg
  | case2 u hu f u' hu' => cases hu'.symm.trans hg'
  | case3 u hu y u' hu' =>
    obtain ⟨hchunk, rfl⟩ := Prod.mk.inj (hu.symm.trans hg)
    obtain ⟨-, rfl⟩ := Prod.mk.inj (hu'.symm.trans hg')
    have hempty := (List.take_eq_nil_iff.1 (Except.ok.inj hchunk).symm).resolve_left c.chunk_pos.ne'
    exact .inr ⟨.inl hempty, _, rfl⟩
  | case4 x xs u hu f u' hu' => cases hu'.symm.trans hg'
  | case5 x xs u hu u' hu' =>
    obtain ⟨hchunk, rfl⟩ := Prod.mk.inj (hu.symm.trans hg)
    obtain ⟨hchunk', rfl⟩ := Prod.mk.inj (hu'.symm.trans hg')
    refine .inl ⟨?_, (Except.ok.inj hchunk).symm.trans (Except.ok.inj hchunk'), rfl⟩
    rintro rfl
    simp at hchunk
  | case6 x xs u hu y u' hu' hne =>
    obtain ⟨hchunk, rfl⟩ := Prod.mk.inj (hu.symm.trans hg)
    obtain ⟨hchunk', rfl⟩ := Prod.mk.inj (hu'.symm.trans hg')
    rw [Except.ok.inj hchunk, Except.ok.inj hchunk'] at hne
    exact .inr ⟨.inr hne, _, rfl⟩

/-- Two streams that do not fail are read to the end of the chunk in which they first differ. -/
theorem equal_taken (c : Comparator) {s s' : Stream} {n n' : Nat} (h : s.Holds n b .ended)
    (h' : s'.Holds n' b' .ended) (hcommon : LongestCommon b b' common) :
    LeftAfter (reach c.chunk common.length) n b (c.equal s s').first ∧
      LeftAfter (reach c.chunk common.length) n' b' (c.equal s s').second := by
  have hpos := c.chunk_pos
  induction hlen : b.length using Nat.strongRecOn generalizing s s' n n' b b' common with
  | _ k ih =>
    obtain ⟨t, t', ht, ht', ⟨hb, hsame, heq⟩ | ⟨hstop, answer, heq⟩⟩ := c.equal_chunk h h'
    · obtain ⟨more, hmore, hleft⟩ := hcommon.after_chunk hpos hsame
      have hshort : (b.drop c.chunk).length < k := by
        have := List.length_pos_iff.2 hb
        rw [List.length_drop]
        omega
      obtain ⟨hfirst, hsecond⟩ := ih _ hshort ht ht' hmore rfl
      rw [heq]
      exact hleft hfirst hsecond
    · have hlt : common.length < c.chunk := by
        rcases hstop with rfl | hne
        · rw [List.prefix_nil.1 hcommon.1]
          exact hpos
        · exact hcommon.length_lt hne
      rw [heq, reach_of_lt hlt]
      exact ⟨ht, ht'⟩

/-! ## Comparisons -/

/-- Where two streams that do not fail differ, a comparison takes all that they have up to the end
of the chunk in which the first difference lies; where they hold the same bytes, it takes them all.
The chunk size is that which is asked for, within 1 byte and 8 MiB; the buffers may hold anything.
-/
theorem comparison_taken {s s' : Stream} {n n' : Nat} (h : s.Holds n b .ended)
    (h' : s'.Holds n' b' .ended) (hcommon : LongestCommon b b' common) (chunk : Nat) (u : Buffers) :
    let size := max 1 (min chunk (8 * 1024 * 1024))
    let seen := size * (common.length / size + 1)
    let left := ((ofChunk chunk).equalIn u s s').1
    (b ≠ b' → left.first.Holds (n + min b.length seen) (b.drop seen) .ended ∧
        left.second.Holds (n' + min b'.length seen) (b'.drop seen) .ended) ∧
      (b = b' → left.first.Holds (n + b.length) [] .ended ∧
        left.second.Holds (n' + b'.length) [] .ended) := by
  intro size seen left
  have htaken : LeftAfter seen n b left.first ∧ LeftAfter seen n' b' left.second := by
    have hleft : left = (ofChunk chunk).equal s s' := equalIn_fst ..
    rw [hleft]
    exact (ofChunk chunk).equal_taken h h' hcommon
  refine ⟨fun _ => htaken, ?_⟩
  rintro rfl
  obtain rfl := longestCommon_self_iff.1 hcommon
  have hseen : common.length ≤ seen := Nat.le_of_lt (lt_reach (ofChunk chunk).chunk_pos)
  have hall : ∀ {k t}, LeftAfter seen k common t → t.Holds (k + common.length) [] .ended := by
    intro k t ht
    rwa [LeftAfter, Nat.min_eq_left hseen, List.drop_eq_nil_of_le hseen] at ht
  exact ⟨hall htaken.1, hall htaken.2⟩

/-- The first stream ends with a chunk, and one chunk more of the second shows that it goes on. -/
theorem comparison_taken_prefix :
    let s : Stream := { script := [.data [1] none, .fail ⟨.interrupted, ""⟩, .data [2] none] }
    let s' : Stream := { script := [.data [1, 2, 3, 4, 5] (some 1)] }
    let left := ((ofChunk 2).equalIn ⟨[9, 9, 9], []⟩ s s').1
    left.first.delivered = 2 ∧ left.second.Holds 4 [5] .ended := by
  intro s s' left
  have h : s.Holds 0 [1, 2] .ended :=
    ⟨.data (by decide) (.interrupted rfl (.data (by decide) .ended)), rfl⟩
  have h' : s'.Holds 0 [1, 2, 3, 4, 5] .ended := ⟨.data (by decide) .ended, rfl⟩
  have hcommon : LongestCommon [1, 2] [1, 2, 3, 4, 5] [1, 2] :=
    ⟨List.prefix_refl _, ⟨[3, 4, 5], rfl⟩, fun other ho _ => ho.length_le⟩
  obtain ⟨hfirst, hsecond⟩ := (comparison_taken h h' hcommon 2 ⟨[9, 9, 9], []⟩).1 (by decide)
  exact ⟨hfirst.delivered_eq, hsecond⟩

end CollectionDelta.Comparator
