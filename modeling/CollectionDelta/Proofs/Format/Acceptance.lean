import CollectionDelta.Format.Decoder
import CollectionDelta.Proofs.Stream.Delivery

/-!
Decoders and the written forms that they accept.

* `Form`: which bytes are a written form of which value; `Form.seq` puts one form after another.
* `Form.PrefixFree`: no form goes on in two ways; forms in sequence keep to that.
* `Accepts`: a decoder takes exactly the bytes of a form, whatever follows and however the bytes
  arrive, accepts nothing else, and runs short of data inside of a form.
* `accepts_pure`, `accepts_fail`, `accepts_ofExcept`, `accepts_exactly`, `accepts_byte`,
  `accepts_gathered`: the parts that decoders are made of.
* `accepts_bind`: decoders in sequence accept forms in sequence.
* `Accepts.prefixFree`: what a decoder accepts is free of prefixes.
* `Refuses`: a decoder fails at certain bytes, whatever follows them.
-/

namespace CollectionDelta

open CollectionDelta.Stream (Ending)

/-- Which bytes are a written form of which value. -/
abbrev Form (α : Type) := α → Bytes → Prop

/-- A form of a first value, and then a form of a second one that depends on it. -/
def Form.seq {α β : Type} (G : Form α) (H : α → Form β) : Form β := fun b w =>
  ∃ a u v, w = u ++ v ∧ G a u ∧ H a b v

/-- No form goes on in two ways: what comes first of two equal texts is the same form. -/
def Form.PrefixFree {α : Type} (G : Form α) : Prop :=
  ∀ ⦃a a' : α⦄ ⦃w w' rest rest' : Bytes⦄, G a w → G a' w' → w ++ rest = w' ++ rest' →
    a = a' ∧ w = w' ∧ rest = rest'

theorem Form.PrefixFree.seq {α β : Type} {G : Form α} {H : α → Form β} (hG : G.PrefixFree)
    (hH : ∀ a, (H a).PrefixFree) : (G.seq H).PrefixFree := by
  rintro b b' w w' rest rest' ⟨a, u, v, rfl, hu, hv⟩ ⟨a', u', v', rfl, hu', hv'⟩ h
  rw [List.append_assoc, List.append_assoc] at h
  obtain ⟨rfl, rfl, hrest⟩ := hG hu hu' h
  obtain ⟨rfl, rfl, rfl⟩ := hH a hv hv' hrest
  exact ⟨rfl, rfl, rfl⟩

namespace Decoder

variable {α β : Type}

structure Accepts (d : Decoder α) (G : Form α) : Prop where
  complete : ∀ {a : α} {w rest : Bytes} {s : Stream} {n : Nat} {e : Ending}, G a w →
    s.Holds n (w ++ rest) e → ∃ t, d s = (.ok a, t) ∧ t.Holds (n + w.length) rest e
  sound : ∀ {a : α} {b : Bytes} {s t : Stream} {n : Nat} {e : Ending}, s.Holds n b e →
    d s = (.ok a, t) → ∃ w rest, b = w ++ rest ∧ G a w
  starved : ∀ {a : α} {v u : Bytes} {s : Stream} {n : Nat}, G a (v ++ u) → u ≠ [] →
    s.Holds n v .ended → ∃ f t, d s = (.error (.io f), t) ∧ f.kind = .unexpectedEof

theorem Accepts.congr {d : Decoder α} {G H : Form α} (h : d.Accepts G)
    (hGH : ∀ a w, G a w ↔ H a w) : d.Accepts H := by
  have : G = H := funext fun a => funext fun w => propext (hGH a w)
  exact this ▸ h

/-- After a success the stream holds what follows the form. -/
theorem Accepts.rest {d : Decoder α} {G : Form α} (h : d.Accepts G) {a : α} {b : Bytes}
    {s t : Stream} {n : Nat} {e : Ending} (hs : s.Holds n b e) (hd : d s = (.ok a, t)) :
    ∃ w rest, b = w ++ rest ∧ G a w ∧ t.Holds (n + w.length) rest e := by
  obtain ⟨w, rest, rfl, hw⟩ := h.sound hs hd
  obtain ⟨t', hd', ht⟩ := h.complete hw hs
  rw [hd] at hd'
  cases hd'
  exact ⟨w, rest, rfl, hw, ht⟩

theorem Accepts.prefixFree {d : Decoder α} {G : Form α} (h : d.Accepts G) : G.PrefixFree := by
  intro a a' w w' rest rest' hw hw' hb
  have hs := Stream.holds_ofBytes (w ++ rest)
  have hs' := Stream.holds_ofBytes (w' ++ rest')
  obtain ⟨t, hd, ht⟩ := h.complete hw hs
  obtain ⟨t', hd', ht'⟩ := h.complete hw' hs'
  rw [← hb, hd] at hd'
  cases hd'
  obtain ⟨hn, hr, -⟩ := Stream.holds_unique ht ht'
  subst hr
  exact ⟨rfl, List.append_cancel_right hb, rfl⟩

/-! ## The parts -/

theorem bind_apply (d : Decoder α) (k : α → Decoder β) (s : Stream) :
    (d >>= k) s = match d s with
      | (.ok a, t) => k a t
      | (.error e, t) => (.error e, t) := rfl

theorem accepts_pure (a : α) : (pure a : Decoder α).Accepts fun c w => c = a ∧ w = [] where
  complete := by
    rintro c w rest s n e ⟨rfl, rfl⟩ hs
    exact ⟨s, rfl, by simpa using hs⟩
  sound := by
    intro c b s t n e hs hd
    cases hd
    exact ⟨[], b, rfl, rfl, rfl⟩
  starved := by
    rintro c v u s n ⟨-, hvu⟩ hu -
    exact absurd (List.append_eq_nil_iff.1 hvu).2 hu

theorem accepts_fail (err : FormatError) : (fail err : Decoder α).Accepts fun _ _ => False where
  complete := False.elim
  sound := by
    intro c b s t n e _ hd
    cases hd
  starved := False.elim

theorem accepts_invalid (defect : Defect) :
    (invalid defect : Decoder α).Accepts fun _ _ => False := accepts_fail _

theorem accepts_ofExcept (r : Except FormatError α) :
    (ofExcept r).Accepts fun c w => r = .ok c ∧ w = [] where
  complete := by
    rintro c w rest s n e ⟨rfl, rfl⟩ hs
    exact ⟨s, rfl, by simpa using hs⟩
  sound := by
    intro c b s t n e hs hd
    cases hd
    exact ⟨[], b, rfl, rfl, rfl⟩
  starved := by
    rintro c v u s n ⟨-, hvu⟩ hu -
    exact absurd (List.append_eq_nil_iff.1 hvu).2 hu

/-- Bytes of a fixed number stand for themselves. -/
def Raw (n : Nat) : Form Bytes := fun b w => b = w ∧ w.length = n

/-- A decoder that takes `want` bytes, and fails where there are fewer. -/
theorem accepts_raw {d : Decoder Bytes} {want : Nat}
    (full : ∀ {s n b e}, want ≤ b.length → s.Holds n b e →
      ∃ t, d s = (.ok (b.take want), t) ∧ t.Holds (n + want) (b.drop want) e)
    (short : ∀ {s n b}, b.length < want → s.Holds n b .ended →
      ∃ f t, d s = (.error (.io f), t) ∧ f.kind = .unexpectedEof)
    (broken : ∀ {s n b f}, b.length < want → s.Holds n b (.broken f) →
      ∃ t, d s = (.error (.io f), t)) : d.Accepts (Raw want) where
  complete := by
    rintro b w rest s n e ⟨rfl, rfl⟩ hs
    have hle : b.length ≤ (b ++ rest).length := by simp
    obtain ⟨t, hd, ht⟩ := full hle hs
    rw [List.take_left] at hd
    rw [List.drop_left] at ht
    exact ⟨t, hd, ht⟩
  sound := by
    intro w b s t n e hs hd
    by_cases hb : want ≤ b.length
    · obtain ⟨t', hd', -⟩ := full hb hs
      rw [hd] at hd'
      cases hd'
      exact ⟨b.take want, b.drop want, (List.take_append_drop ..).symm, rfl,
        List.length_take_of_le hb⟩
    · have hlt : b.length < want := Nat.lt_of_not_le hb
      cases e with
      | ended =>
        obtain ⟨f, t', hd', -⟩ := short hlt hs
        simp [hd] at hd'
      | broken f =>
        obtain ⟨t', hd'⟩ := broken hlt hs
        simp [hd] at hd'
  starved := by
    rintro b v u s n ⟨-, hlen⟩ hu hs
    have hpos := List.length_pos_iff.2 hu
    rw [List.length_append] at hlen
    exact short (by omega) hs

theorem accepts_exactly (want : Nat) : (exactly want).Accepts (Raw want) := by
  apply accepts_raw
  · intro s n b e hb hs
    obtain ⟨t, hr, ht⟩ := Stream.exactly_holds hb hs
    exact ⟨t, by simp [exactly, ofRead, hr], ht⟩
  · intro s n b hb hs
    obtain ⟨t, hr, -⟩ := Stream.exactly_short hb hs
    exact ⟨.shortRead, t, by simp [exactly, ofRead, hr], rfl⟩
  · intro s n b f hb hs
    obtain ⟨t, hr, -⟩ := Stream.exactly_broken hb hs
    exact ⟨t, by simp [exactly, ofRead, hr]⟩

theorem accepts_gathered (want : Nat) : (gathered want).Accepts (Raw want) := by
  apply accepts_raw
  · intro s n b e hb hs
    obtain ⟨t, hr, ht⟩ := Stream.gather_holds hb hs
    have hlen : ¬ (b.take want).length < want := by
      rw [List.length_take_of_le hb]
      exact Nat.lt_irrefl _
    refine ⟨t, ?_, ht⟩
    rw [gathered, bind_apply, ofRead, hr]
    simp only [hlen, if_false]
    rfl
  · intro s n b hb hs
    obtain ⟨t, hr, -⟩ := Stream.gather_short hb hs
    refine ⟨⟨.unexpectedEof, s!"expected {want} bytes, got {b.length}"⟩, t, ?_, rfl⟩
    rw [gathered, bind_apply, ofRead, hr]
    simp only [hb, if_true]
    rfl
  · intro s n b f hb hs
    obtain ⟨t, hr, -⟩ := Stream.gather_broken hb hs
    exact ⟨t, by rw [gathered, bind_apply, ofRead, hr]⟩

/-! ## Sequences -/

theorem accepts_bind {d : Decoder α} {k : α → Decoder β} {G : Form α} {H : α → Form β}
    (hd : d.Accepts G) (hk : ∀ a, (k a).Accepts (H a)) : (d >>= k).Accepts (G.seq H) where
  complete := by
    rintro b w rest s n e ⟨a, u, v, rfl, hu, hv⟩ hs
    rw [List.append_assoc] at hs
    obtain ⟨t, hdt, ht⟩ := hd.complete hu hs
    obtain ⟨t', hkt, ht'⟩ := (hk a).complete hv ht
    refine ⟨t', by rw [bind_apply, hdt]; exact hkt, ?_⟩
    rwa [List.length_append, ← Nat.add_assoc]
  sound := by
    intro b c s t n e hs hb
    rw [bind_apply] at hb
    split at hb
    · next a t' hdt =>
      obtain ⟨u, r, rfl, hu, ht'⟩ := hd.rest hs hdt
      obtain ⟨v, rest, rfl, hv⟩ := (hk a).sound ht' hb
      exact ⟨u ++ v, rest, (List.append_assoc ..).symm, a, u, v, rfl, hu, hv⟩
    · cases hb
  starved := by
    rintro b v u s n ⟨a, x, y, hxy, hx, hy⟩ hu hs
    -- The data end inside of the first form, or at or after its end.
    rcases List.append_eq_append_iff.1 hxy with ⟨z, rfl, rfl⟩ | ⟨z, rfl, rfl⟩
    · cases z with
      | nil =>
        rw [List.append_nil] at hx
        rw [List.nil_append] at hu
        rw [← List.append_nil v] at hs
        obtain ⟨t, hdt, ht⟩ := hd.complete hx hs
        obtain ⟨f, t', hkt, hf⟩ := (hk a).starved (show H a b ([] ++ y) from hy) hu ht
        exact ⟨f, t', by rw [bind_apply, hdt]; exact hkt, hf⟩
      | cons c z =>
        obtain ⟨f, t, hdt, hf⟩ := hd.starved hx (by simp) hs
        exact ⟨f, t, by rw [bind_apply, hdt], hf⟩
    · obtain ⟨t, hdt, ht⟩ := hd.complete hx hs
      obtain ⟨f, t', hkt, hf⟩ := (hk a).starved hy hu ht
      exact ⟨f, t', by rw [bind_apply, hdt]; exact hkt, hf⟩

theorem accepts_byte : byte.Accepts fun c w => w = [c] := by
  refine (accepts_bind (accepts_exactly 1) fun b => accepts_pure (b.headD 0)).congr ?_
  intro c w
  constructor
  · rintro ⟨b, u, v, rfl, ⟨rfl, hlen⟩, rfl, rfl⟩
    obtain ⟨x, rfl⟩ := List.length_eq_one_iff.1 hlen
    rfl
  · rintro rfl
    exact ⟨[c], [c], [], rfl, ⟨rfl, rfl⟩, rfl, rfl⟩

/-! ## Refusals -/

/-- A stream that begins with the bytes `w` makes the decoder fail with `err`. -/
def Refuses (d : Decoder α) (err : FormatError) (w : Bytes) : Prop :=
  ∀ ⦃rest : Bytes⦄ ⦃s : Stream⦄ ⦃n : Nat⦄ ⦃e : Ending⦄, s.Holds n (w ++ rest) e →
    ∃ t, d s = (.error err, t)

theorem refuses_fail (err : FormatError) : (fail err : Decoder α).Refuses err [] :=
  fun _ s _ _ _ => ⟨s, rfl⟩

theorem Refuses.bind {d : Decoder α} {err : FormatError} {w : Bytes} (h : d.Refuses err w)
    (k : α → Decoder β) : (d >>= k).Refuses err w := by
  intro rest s n e hs
  obtain ⟨t, hd⟩ := h hs
  exact ⟨t, by rw [bind_apply, hd]⟩

/-- A first form is taken, and then the decoder of what follows it fails. -/
theorem Accepts.refuses_bind {d : Decoder α} {k : α → Decoder β} {G : Form α} {err : FormatError}
    {a : α} {u v : Bytes} (hd : d.Accepts G) (hu : G a u) (hk : (k a).Refuses err v) :
    (d >>= k).Refuses err (u ++ v) := by
  intro rest s n e hs
  rw [List.append_assoc] at hs
  obtain ⟨t, hdt, ht⟩ := hd.complete hu hs
  obtain ⟨t', hkt⟩ := hk ht
  exact ⟨t', by rw [bind_apply, hdt]; exact hkt⟩

end Decoder
end CollectionDelta
