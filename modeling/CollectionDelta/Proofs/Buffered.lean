import CollectionDelta.Buffered
import CollectionDelta.Proofs.Writer

/-!
What reaches a writer behind a buffer.

* `Writer.taken_drain`, `Buffered.taken_flush`: nothing is lost or written twice by handing over
  what was held back, however often that is tried.
* `Buffered.keeps`: what is held back counts as taken; `Buffered.whole`: a writer that accepts each
  write whole does so behind a buffer.
-/

namespace CollectionDelta

variable {σ : Type} [Writer σ] {taken : σ → Bytes} {states : σ → Prop}

namespace Writer

theorem taken_drain (hk : Keeps taken) {s t : σ} {b rest : Bytes} {r : Except Fault Unit}
    (h : drain s b = (r, rest, t)) : taken t ++ rest = taken s ++ b := by
  fun_induction drain s b with
  | case1 s =>
    cases h
    rfl
  | case2 s b hb u hw =>
    cases h
    rw [(hk.ok hw).2, List.take_zero, List.append_nil]
  | case3 s b hb n u hw ih =>
    rw [ih h, (hk.ok hw).2, List.append_assoc, List.take_append_drop]
  | case4 s b hb f u hw hf ih => rw [ih h, hk.error hw]
  | case5 s b hb f u hw hf =>
    cases h
    rw [hk.error hw]

theorem drain_whole (h : Whole states) {s : σ} (hs : states s) (b : Bytes) :
    ∃ t, drain s b = (.ok (), [], t) ∧ states t := by
  by_cases hb : b = []
  · exact ⟨s, by rw [hb, drain_nil], hs⟩
  · obtain ⟨t, hw, ht⟩ := h s b hs
    refine ⟨t, ?_, ht⟩
    rw [drain, if_neg hb]
    split
    · next u hu =>
      rw [hw] at hu
      simp only [Prod.mk.injEq, Except.ok.injEq, List.length_eq_zero_iff] at hu
      exact absurd hu.1 hb
    · next n u hu =>
      rw [hw] at hu
      simp only [Prod.mk.injEq, Except.ok.injEq] at hu
      obtain ⟨hn, rfl⟩ := hu
      rw [List.drop_eq_nil_of_le (Nat.le_of_eq hn), drain_nil]
    · next f u hu =>
      rw [hw] at hu
      cases hu

end Writer

namespace Buffered

variable {capacity n : Nat} {s t : Buffered capacity σ} {b : Bytes}

/-- What is taken by a writer and what is held back before it. -/
def takenWith (taken : σ → Bytes) (s : Buffered capacity σ) : Bytes := taken s.inner ++ s.held

theorem takenWith_flush (hk : Writer.Keeps taken) {r : Except Fault Unit} (h : s.flush = (r, t)) :
    takenWith taken t = takenWith taken s := by
  rw [flush] at h
  split at h
  next r rest u hdrain =>
    cases h
    rw [takenWith, held, List.reverse_reverse, Writer.taken_drain hk hdrain, takenWith]

/-- What a flush that succeeds has handed over. -/
theorem taken_flush (hk : Writer.Keeps taken) (h : s.flush = (.ok (), t)) :
    taken t.inner = takenWith taken s := by
  obtain ⟨u, hflush, hu⟩ | ⟨f, u, hflush, -⟩ := flush_outcome s
  · cases h.symm.trans hflush
    rw [← takenWith_flush hk h, takenWith, held, hu]
    exact (List.append_nil _).symm
  · cases h.symm.trans hflush

/-- Nothing is held back before a write that goes to the writer itself. -/
theorem place_keeps (hk : Writer.Keeps taken) (hs : capacity ≤ b.length → s.heldRev = []) :
    (∀ n t, s.place b = (.ok n, t) → n ≤ b.length ∧
      takenWith taken t = takenWith taken s ++ b.take n) ∧
    ∀ f t, s.place b = (.error f, t) → takenWith taken t = takenWith taken s := by
  by_cases hb : capacity ≤ b.length
  · have hheld : s.held = [] := by rw [held, hs hb, List.reverse_nil]
    rw [place, if_pos hb]
    cases hw : Writer.write s.inner b with
    | mk r u =>
      constructor
      · rintro n t heq
        cases heq
        obtain ⟨hn, htaken⟩ := hk.ok hw
        refine ⟨hn, ?_⟩
        show taken u ++ s.held = taken s.inner ++ s.held ++ b.take n
        rw [hheld, List.append_nil, List.append_nil, htaken]
      · rintro f t heq
        cases heq
        show taken u ++ s.held = taken s.inner ++ s.held
        rw [hk.error hw]
  · rw [place, if_neg hb]
    constructor
    · rintro n t heq
      cases heq
      refine ⟨Nat.le_refl _, ?_⟩
      rw [takenWith, takenWith, held, held, List.reverseAux_eq, List.reverse_append,
        List.reverse_reverse, List.take_length, List.append_assoc]
    · rintro f t heq
      cases heq

/-- What has been taken, or is held back, is kept. -/
theorem keeps (hk : Writer.Keeps taken) :
    Writer.Keeps fun s : Buffered capacity σ => takenWith taken s := by
  have hwrite : ∀ (s : Buffered capacity σ) b,
      (∀ n t, s.write b = (.ok n, t) → n ≤ b.length ∧
        takenWith taken t = takenWith taken s ++ b.take n) ∧
      ∀ f t, s.write b = (.error f, t) → takenWith taken t = takenWith taken s := by
    intro s b
    rw [write]
    split
    · next hroom => exact place_keeps hk (heldRev_eq_nil hroom)
    · obtain ⟨u, hflush, hu⟩ | ⟨f, u, hflush, -⟩ := flush_outcome s
      · rw [hflush, ← takenWith_flush hk hflush]
        exact place_keeps hk fun _ => hu
      · rw [hflush]
        constructor
        · rintro n t heq
          cases heq
        · rintro f' t heq
          cases heq
          exact takenWith_flush hk hflush
  exact ⟨fun {s t b n} => (hwrite s b).1 n t, fun {s t b f} => (hwrite s b).2 f t⟩

theorem flush_whole (h : Writer.Whole states) (hs : states s.inner) :
    ∃ t, s.flush = (.ok (), t) ∧ states t.inner := by
  obtain ⟨t, hdrain, ht⟩ := Writer.drain_whole h hs s.held
  exact ⟨⟨t, []⟩, by rw [flush, hdrain]; rfl, ht⟩

theorem place_whole (h : Writer.Whole states) (hs : states s.inner) (b : Bytes) :
    ∃ t, s.place b = (.ok b.length, t) ∧ states t.inner := by
  rw [place]
  split
  · obtain ⟨t, hw, ht⟩ := h s.inner b hs
    exact ⟨_, by rw [hw], ht⟩
  · exact ⟨_, rfl, hs⟩

theorem whole (h : Writer.Whole states) :
    Writer.Whole fun s : Buffered capacity σ => states s.inner := by
  intro s b hs
  show ∃ t, s.write b = _ ∧ _
  rw [write]
  split
  · exact place_whole h hs b
  · obtain ⟨t, hflush, ht⟩ := flush_whole h hs
    rw [hflush]
    exact place_whole h ht b

end Buffered

end CollectionDelta
