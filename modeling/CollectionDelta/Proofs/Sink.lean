import CollectionDelta.Proofs.Writer

/-!
What reaches a scripted writer.

* `write_open`, `whole`: a writer without script and limit accepts everything.
* `write_unlimited`: an encoding handed to such a writer is written to its end.
* `keeps`: a scripted writer keeps what it accepts, whatever its script and limit.
* `HasLimit`: its script leaves nothing to it but a limit; `limited_hasLimit`.
-/

namespace CollectionDelta

namespace Sink

/-- No answer of a script and no limit is in the way. -/
def Open (s : Sink) : Prop := s.script = [] ∧ s.room = none

theorem written_accept (s : Sink) (b : Bytes) : (s.accept b).written = s.written ++ b := by
  simp [accept, written, List.reverseAux_eq]

theorem write_open {s : Sink} (h : s.Open) (b : Bytes) :
    Writer.write s b = (.ok b.length, s.accept b) := by
  show Sink.write s b = _
  unfold Sink.write
  rw [h.1, h.2]

theorem whole : Writer.Whole Open := fun s b h => ⟨s.accept b, write_open h b, h⟩

/-! ## Scripts and limits -/

theorem written_write {s t : Sink} {b : Bytes} {n : Nat} (h : s.write b = (.ok n, t)) :
    n ≤ b.length ∧ t.written = s.written ++ b.take n := by
  unfold write at h
  split at h
  · cases h
  · next k rest _ =>
    cases h
    refine ⟨Nat.min_le_right .., ?_⟩
    rw [← List.take_eq_take_min]
    exact written_accept s _
  · split at h
    · cases h
      exact ⟨Nat.le_refl _, by rw [List.take_length, written_accept]⟩
    · cases h
    · cases h
      refine ⟨Nat.min_le_right .., ?_⟩
      rw [← List.take_eq_take_min]
      exact written_accept s _

theorem written_write_error {s t : Sink} {b : Bytes} {f : Fault} (h : s.write b = (.error f, t)) :
    t.written = s.written := by
  unfold write at h
  split at h
  · cases h
    rfl
  · cases h
  · split at h
    · cases h
    · cases h
      rfl
    · cases h

theorem keeps : Writer.Keeps written where
  ok := written_write
  error := written_write_error

/-- There are only interruptions to come before the limit, which is `n` bytes in all. -/
structure HasLimit (n : Nat) (s : Sink) : Prop where
  interruptions : ∀ a ∈ s.script, ∃ f, a = .fail f ∧ f.isInterruption = true
  room_eq : ∃ room, s.room = some room ∧ s.written.length + room = n

theorem hasLimit_limited (n : Nat) : (limited n).HasLimit n :=
  ⟨nofun, n, rfl, Nat.zero_add n⟩

/-- What a write to such a writer comes to. -/
theorem HasLimit.write {n : Nat} {s : Sink} (h : s.HasLimit n) (b : Bytes) :
    (∃ t k, s.write b = (.ok k, t) ∧ t.HasLimit n ∧ (b ≠ [] → 0 < k)) ∨
      ∃ t f, s.write b = (.error f, t) ∧ t.HasLimit n ∧
        (f.isInterruption = false → t.written.length = n) := by
  obtain ⟨hscript, room, hroom, hn⟩ := h
  unfold Sink.write
  split
  · next f rest heq =>
    rw [heq] at hscript
    obtain ⟨f', hf, hint⟩ := hscript _ (List.mem_cons_self ..)
    cases hf
    have hrest := fun a ha => hscript a (List.mem_cons_of_mem _ ha)
    refine .inr ⟨_, f, rfl, ⟨hrest, room, hroom, hn⟩, ?_⟩
    intro hno
    rw [hint] at hno
    cases hno
  · next k rest heq =>
    rw [heq] at hscript
    obtain ⟨f, hf, -⟩ := hscript _ (List.mem_cons_self ..)
    cases hf
  · next heq =>
    rw [hroom]
    cases room with
    | zero => exact .inr ⟨_, _, rfl, ⟨hscript, 0, hroom, hn⟩, fun _ => hn⟩
    | succ r =>
      refine .inl ⟨_, _, rfl, ⟨hscript, r + 1 - b.length, rfl, ?_⟩, ?_⟩
      · show (s.accept (b.take (r + 1))).written.length + (r + 1 - b.length) = n
        rw [written_accept, List.length_append, List.length_take]
        omega
      · intro hb
        have := List.length_pos_iff.2 hb
        omega

theorem limited_hasLimit (n : Nat) : Writer.Limited written (HasLimit n) n where
  next := by
    intro s t b r hs h
    rcases hs.write b with ⟨t', k', h', ht, -⟩ | ⟨t', f, h', ht, -⟩
    · cases h.symm.trans h'
      exact ht
    · cases h.symm.trans h'
      exact ht
  length_le hs := by
    obtain ⟨room, -, hn⟩ := hs.room_eq
    omega
  stopped := by
    intro s t b hs hb h
    rcases hs.write b with ⟨t', k', h', -, hpos⟩ | ⟨t', f, h', -⟩
    · cases h.symm.trans h'
      exact absurd (hpos hb) (Nat.lt_irrefl 0)
    · cases h.symm.trans h'
  failed := by
    intro s t b f hs h hf
    rcases hs.write b with ⟨t', k', h', -⟩ | ⟨t', f', h', -, hfull⟩
    · cases h.symm.trans h'
    · cases h.symm.trans h'
      exact hfull hf

end Sink

theorem Encoding.write_unlimited {α : Type} (enc : Encoding α) :
    ∃ s : Sink, enc.write Sink.unlimited = (enc.result, s) ∧ s.written = enc.bytes := by
  have hopen : Sink.unlimited.Open := ⟨rfl, rfl⟩
  obtain ⟨s, hwrite, hwritten, -⟩ := enc.write_whole Sink.keeps Sink.whole hopen
  exact ⟨s, hwrite, hwritten⟩

end CollectionDelta
