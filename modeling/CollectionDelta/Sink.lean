import CollectionDelta.Bytes
import CollectionDelta.Fault

/-!
Writers of bytes and their manner of acceptance.

* `Writer`: what accepts a first part of each write, and is interrupted finitely often only.
* `Writer.writeAll`, `Writer.writeEach`: write until all bytes, or all pieces, are accepted;
  interruptions are tried again.
* `Answer`, `Sink`: the scripted writer, with `Sink.written` for everything accepted so far.
-/

namespace CollectionDelta

class Writer (σ : Type) where
  /-- One write: the number of bytes accepted, which are the first ones. -/
  write : σ → Bytes → Except Fault Nat × σ
  /-- A bound on the interruptions still to come. -/
  patience : σ → Nat
  patience_interrupted : ∀ {s t : σ} {b : Bytes} {f : Fault},
    write s b = (.error f, t) → f.isInterruption = true → patience t < patience s

namespace Writer

/-- Writes again what was not accepted, until nothing is left or a write fails or accepts nothing. -/
def writeAll {σ : Type} [Writer σ] (s : σ) (b : Bytes) : Except Fault Unit × σ :=
  if b = [] then (.ok (), s) else
  match h : write s b with
  | (.ok 0, t) => (.error .nothingWritten, t)
  | (.ok (n + 1), t) => writeAll t (b.drop (n + 1))
  | (.error f, t) => if f.isInterruption then writeAll t b else (.error f, t)
termination_by (b.length, patience s)
decreasing_by
  · apply Prod.Lex.left
    have : b.length ≠ 0 := by simpa using ‹¬b = []›
    simp only [List.length_drop]
    omega
  · exact Prod.Lex.right _ (patience_interrupted h ‹_›)

/-- Writes pieces one after another, up to the first that fails. -/
def writeEach {σ : Type} [Writer σ] (s : σ) : List Bytes → Except Fault Unit × σ
  | [] => (.ok (), s)
  | b :: bs =>
    match writeAll s b with
    | (.ok (), t) => writeEach t bs
    | (.error f, t) => (.error f, t)

end Writer

/-! ## The scripted writer -/

/-- A write that accepts at most some bytes, or that fails. -/
inductive Answer
  | accept (atMost : Nat)
  | fail (fault : Fault)
  deriving DecidableEq, Repr

structure Sink where
  /-- The answers to the next writes; later ones accept what there is room for. -/
  script : List Answer := []
  /-- How many bytes are accepted once the script is over; `none` is no limit. -/
  room : Option Nat := none
  /-- The accepted bytes, last one first. -/
  acceptedRev : Bytes := []
  deriving DecidableEq, Repr

namespace Sink

def unlimited : Sink := {}
def limited (room : Nat) : Sink := { room := some room }

def written (s : Sink) : Bytes := s.acceptedRev.reverse

def accept (s : Sink) (b : Bytes) : Sink :=
  { s with acceptedRev := b.reverseAux s.acceptedRev }

def write (s : Sink) (b : Bytes) : Except Fault Nat × Sink :=
  match s.script with
  | .fail f :: rest => (.error f, { s with script := rest })
  | .accept k :: rest => (.ok (min k b.length), { s.accept (b.take k) with script := rest })
  | [] =>
    match s.room with
    | none => (.ok b.length, s.accept b)
    | some 0 => (.error .full, s)
    | some (r + 1) =>
      (.ok (min (r + 1) b.length),
        { s.accept (b.take (r + 1)) with room := some (r + 1 - b.length) })

instance : Writer Sink where
  write := write
  patience s := s.script.length
  patience_interrupted := by
    intro s t b f h hf
    unfold write at h
    split at h
    · next hs => cases h; simp [hs]
    · cases h
    · split at h
      · cases h
      · cases h; simp [Fault.isInterruption, Fault.full] at hf
      · cases h

end Sink
end CollectionDelta
