import CollectionDelta.Sink

/-!
A writer that holds bytes back for another one.

* `Writer.drain`: hands over bytes until none is left, and gives back those that are.
* `Buffered`: bytes that are held back before a writer; `Buffered.flush` hands them over.
* `Buffered.write`: a small write is held back, after a flush if there is no room for it; one that
  would fill the buffer goes to the writer itself.
-/

namespace CollectionDelta

def Fault.notFlushed : Fault := ⟨.writeZero, "failed to write the buffered data"⟩

namespace Writer

variable {σ : Type} [Writer σ]

/-- Writes again what was not accepted, until nothing is left or a write fails or accepts nothing;
with what is left then. -/
def drain (s : σ) (b : Bytes) : Except Fault Unit × Bytes × σ :=
  if b = [] then (.ok (), [], s) else
  match h : write s b with
  | (.ok 0, t) => (.error .notFlushed, b, t)
  | (.ok (n + 1), t) => drain t (b.drop (n + 1))
  | (.error f, t) => if f.isInterruption then drain t b else (.error f, b, t)
termination_by (b.length, patience s)
decreasing_by
  · apply Prod.Lex.left
    have : b.length ≠ 0 := by simpa using ‹¬b = []›
    simp only [List.length_drop]
    omega
  · exact Prod.Lex.right _ (patience_interrupted h ‹_›)

@[simp] theorem drain_nil (s : σ) : drain s [] = (.ok (), [], s) := by rw [drain, if_pos rfl]

/-- Nothing is left unless there is a failure, and that is no interruption. -/
theorem drain_outcome (s : σ) (b : Bytes) : (∃ t, drain s b = (.ok (), [], t)) ∨
    ∃ f rest t, drain s b = (.error f, rest, t) ∧ f.isInterruption = false := by
  fun_induction drain s b with
  | case1 s => exact .inl ⟨s, rfl⟩
  | case2 s b hb t hw => exact .inr ⟨_, b, t, rfl, rfl⟩
  | case3 s b hb n t hw ih => exact ih
  | case4 s b hb f t hw hf ih => exact ih
  | case5 s b hb f t hw hf => exact .inr ⟨f, b, t, rfl, Bool.eq_false_iff.2 hf⟩

end Writer

structure Buffered (capacity : Nat) (σ : Type) where
  inner : σ
  /-- The bytes held back, last one first. -/
  heldRev : Bytes := []

namespace Buffered

variable {capacity : Nat} {σ : Type}

def held (s : Buffered capacity σ) : Bytes := s.heldRev.reverse

/-- A write that would fill the buffer has room only in an empty one. -/
theorem heldRev_eq_nil {s : Buffered capacity σ} {b : Bytes}
    (hroom : s.heldRev.length + b.length ≤ capacity) (hb : capacity ≤ b.length) :
    s.heldRev = [] := by
  rw [← List.length_eq_zero_iff]
  omega

variable [Writer σ]

def flush (s : Buffered capacity σ) : Except Fault Unit × Buffered capacity σ :=
  match Writer.drain s.inner s.held with
  | (r, rest, t) => (r, ⟨t, rest.reverse⟩)

/-- A write for which there is room, or before which nothing is held back. -/
def place (s : Buffered capacity σ) (b : Bytes) : Except Fault Nat × Buffered capacity σ :=
  if capacity ≤ b.length then
    match Writer.write s.inner b with
    | (r, t) => (r, { s with inner := t })
  else (.ok b.length, { s with heldRev := b.reverseAux s.heldRev })

def write (s : Buffered capacity σ) (b : Bytes) : Except Fault Nat × Buffered capacity σ :=
  if s.heldRev.length + b.length ≤ capacity then s.place b else
  match s.flush with
  | (.error f, t) => (.error f, t)
  | (.ok (), t) => t.place b

section Patience

variable {s t : Buffered capacity σ} {b : Bytes} {f : Fault}

theorem flush_of_empty (h : s.heldRev = []) : s.flush = (.ok (), s) := by
  obtain ⟨inner, _⟩ := s
  subst h
  rw [flush, held, List.reverse_nil, Writer.drain_nil]
  rfl

theorem flush_outcome (s : Buffered capacity σ) : (∃ t, s.flush = (.ok (), t) ∧ t.heldRev = []) ∨
    ∃ f t, s.flush = (.error f, t) ∧ f.isInterruption = false := by
  rw [flush]
  obtain ⟨t, ht⟩ | ⟨f, rest, t, ht, hf⟩ := Writer.drain_outcome s.inner s.held
  · rw [ht]
    exact .inl ⟨_, rfl, rfl⟩
  · rw [ht]
    exact .inr ⟨f, _, rfl, hf⟩

theorem place_eq_error (h : s.place b = (.error f, t)) : capacity ≤ b.length ∧
    ∃ u, Writer.write s.inner b = (.error f, u) ∧ t = ⟨u, s.heldRev⟩ := by
  rw [place] at h
  split at h
  · next hb =>
    split at h
    next r u hw =>
      cases h
      exact ⟨hb, u, hw, rfl⟩
  · cases h

/-- A writer is no more patient behind a buffer than it is once that is flushed. -/
theorem patience_of_place (hs : s.heldRev = []) (h : s.place b = (.error f, t))
    (hf : f.isInterruption = true) :
    Writer.patience t.flush.2.inner < Writer.patience s.inner := by
  obtain ⟨-, u, hw, rfl⟩ := place_eq_error h
  have hflush : (⟨u, s.heldRev⟩ : Buffered capacity σ).flush = (.ok (), ⟨u, s.heldRev⟩) :=
    flush_of_empty hs
  rw [hflush]
  exact Writer.patience_interrupted hw hf

instance : Writer (Buffered capacity σ) where
  write := write
  patience s := Writer.patience s.flush.2.inner
  patience_interrupted := by
    intro s t b f h hf
    rw [write] at h
    split at h
    · next hroom =>
      have hs : s.heldRev = [] := heldRev_eq_nil hroom (place_eq_error h).1
      rw [flush_of_empty hs]
      exact patience_of_place hs h hf
    · obtain ⟨u, hflush, hu⟩ | ⟨e, u, hflush, he⟩ := flush_outcome s
      · rw [hflush] at h ⊢
        exact patience_of_place hu h hf
      · rw [hflush] at h
        cases h
        rw [he] at hf
        cases hf

end Patience

end Buffered
end CollectionDelta
