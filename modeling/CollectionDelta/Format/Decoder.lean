import CollectionDelta.Format.Error
import CollectionDelta.Varint

/-!
Readers of parts of a diff file.

* `Decoder`: takes from a stream and gives a value or the reason why there is none.
* `Decoder.exactly`, `byte`, `varint`, `gathered`: the parts every field is made of.
* `Decoder.Shrinks`: a decoder never lengthens its stream; the parts do not, nor do decoders made of
  such ones.
-/

namespace CollectionDelta

def Decoder (α : Type) := Stream → Except FormatError α × Stream

namespace Decoder

variable {α β : Type}

protected def pure (a : α) : Decoder α := fun s => (.ok a, s)

protected def bind (d : Decoder α) (k : α → Decoder β) : Decoder β := fun s =>
  match d s with
  | (.ok a, t) => k a t
  | (.error e, t) => (.error e, t)

instance : Monad Decoder where
  pure := Decoder.pure
  bind := Decoder.bind

def fail (e : FormatError) : Decoder α := fun s => (.error e, s)

def ofExcept (r : Except FormatError α) : Decoder α := fun s => (r, s)

def invalid (d : Defect) : Decoder α := fail (.invalid d)

/-- A read whose failure is passed on. -/
def ofRead (r : Stream → Except Fault α × Stream) : Decoder α := fun s =>
  match r s with
  | (.ok a, t) => (.ok a, t)
  | (.error f, t) => (.error (.io f), t)

def exactly (n : Nat) : Decoder Bytes := ofRead (Stream.exactly n)

def byte : Decoder UInt8 := do
  let b ← exactly 1
  return b.headD 0

def varint : Decoder Nat := ofRead Varint.read

/-- The next `n` bytes; a stream that ends before is told how many it had. -/
def gathered (n : Nat) : Decoder Bytes := do
  let b ← ofRead (Stream.gather n)
  if b.length < n then
    fail (.io ⟨.unexpectedEof, s!"expected {n} bytes, got {b.length}"⟩)
  else return b

/-! ## Streams do not grow -/

def Shrinks (d : Decoder α) : Prop := ∀ s, (d s).2.weight ≤ s.weight

theorem shrinks_pure (a : α) : Shrinks (pure a : Decoder α) := fun _ => Nat.le_refl _

theorem shrinks_fail (e : FormatError) : Shrinks (fail e : Decoder α) := fun _ => Nat.le_refl _

theorem shrinks_ofExcept (r : Except FormatError α) : Shrinks (ofExcept r) :=
  fun _ => Nat.le_refl _

theorem shrinks_invalid (d : Defect) : Shrinks (invalid d : Decoder α) := shrinks_fail _

theorem shrinks_bind {d : Decoder α} {k : α → Decoder β} (hd : Shrinks d)
    (hk : ∀ a, Shrinks (k a)) : Shrinks (d >>= k) := by
  intro s
  have h := hd s
  show (Decoder.bind d k s).2.weight ≤ _
  unfold Decoder.bind
  split
  · next a t e => rw [e] at h; exact Nat.le_trans (hk a t) h
  · next e => rw [e] at h; exact h

theorem shrinks_ofRead {r : Stream → Except Fault α × Stream}
    (h : ∀ s, (r s).2.weight ≤ s.weight) : Shrinks (ofRead r) := by
  intro s
  have := h s
  unfold ofRead
  split <;> simp_all

theorem shrinks_exactly (n : Nat) : Shrinks (exactly n) :=
  shrinks_ofRead (Stream.exactly_weight_le n)

theorem shrinks_byte : Shrinks byte :=
  shrinks_bind (shrinks_exactly 1) fun _ => shrinks_pure _

theorem shrinks_varint : Shrinks varint := shrinks_ofRead Varint.read_weight_le

theorem shrinks_gathered (n : Nat) : Shrinks (gathered n) := by
  apply shrinks_bind (shrinks_ofRead (Stream.gather_weight_le n))
  intro b
  split
  · exact shrinks_fail _
  · exact shrinks_pure _

/-- A decoder that begins with a byte and succeeds has used up some of its stream. -/
theorem weight_lt_of_byte_bind {k : UInt8 → Decoder α} (hk : ∀ c, Shrinks (k c))
    {s t : Stream} {a : α} (h : (byte >>= k) s = (.ok a, t)) : t.weight < s.weight := by
  change Decoder.bind (Decoder.bind (exactly 1) fun b => Decoder.pure (b.headD 0)) k s = _ at h
  unfold Decoder.bind at h
  unfold exactly ofRead at h
  cases e : s.exactly 1 with
  | mk r u =>
    cases r with
    | error f => simp [e] at h
    | ok b =>
      simp only [e, Decoder.pure] at h
      have h1 := Stream.exactly_weight_lt (by decide) e
      have h2 := hk (b.headD 0) u
      rw [h] at h2
      exact Nat.lt_of_le_of_lt h2 h1

end Decoder
end CollectionDelta
