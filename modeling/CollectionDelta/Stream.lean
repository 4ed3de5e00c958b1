import CollectionDelta.Bytes
import CollectionDelta.Fault

/-!
Streams of bytes with their manner of delivery.

* `Event`, `Stream`: a finite script of what the coming reads meet; after it, end of data for ever.
* `Stream.read`: one call, answered with at most the bytes asked for.
* `Stream.gather`: reads until a number of bytes has come, the data end or a read fails;
  interruptions are tried again.
* `Stream.exactly`: `gather` for a reader that cannot go on with less.
* `Stream.weight`: what bounds every loop over a stream: `read_weight`, `gather_weight_le`,
  `gather_weight_lt`.
-/

namespace CollectionDelta

/-- What a read meets: data in pieces of at most `atMost` bytes, a failure, or a call answered with
no bytes although more may follow. -/
inductive Event
  | data (bytes : Bytes) (atMost : Option Nat)
  | fail (fault : Fault)
  | lull
  deriving DecidableEq, Repr

structure Stream where
  script : List Event
  /-- Bytes handed over so far. -/
  delivered : Nat := 0
  /-- Read calls answered so far. -/
  calls : Nat := 0
  deriving DecidableEq, Repr

namespace Stream

def ofBytes (b : Bytes) : Stream := { script := [.data b none] }

/-- A stream whose first read fails. -/
def failing (f : Fault) : Stream := { script := [.fail f] }

/-! ## One read -/

/-- The answer to a read of `want` bytes, and the script that is left. -/
def answer (want : Nat) : List Event → Except Fault Bytes × List Event
  | [] => (.ok [], [])
  | .data [] _ :: rest => answer want rest
  | .data (b :: bs) atMost :: rest =>
    let n := min want (atMost.getD want)
    (.ok ((b :: bs).take n), .data ((b :: bs).drop n) atMost :: rest)
  | .fail f :: rest => (.error f, rest)
  | .lull :: rest => (.ok [], rest)

def read (s : Stream) (want : Nat) : Except Fault Bytes × Stream :=
  match answer want s.script with
  | (.ok b, rest) => (.ok b, ⟨rest, s.delivered + b.length, s.calls + 1⟩)
  | (.error f, rest) => (.error f, ⟨rest, s.delivered, s.calls + 1⟩)

/-! ## Termination -/

def Event.weight : Event → Nat
  | .data bytes _ => bytes.length + 1
  | .fail _ => 1
  | .lull => 1

def weightOf : List Event → Nat
  | [] => 0
  | e :: rest => Event.weight e + weightOf rest

def weight (s : Stream) : Nat := weightOf s.script

private theorem answer_weight (want : Nat) (script : List Event) :
    weightOf (answer want script).2
      + (match (answer want script).1 with | .ok b => b.length | .error _ => 1)
      ≤ weightOf script := by
  fun_induction answer want script with
  | case1 => simp [weightOf]
  | case2 _ rest ih => simp only [weightOf]; omega
  | case3 b bs atMost rest n =>
    simp only [weightOf, Event.weight, List.length_drop, List.length_take]
    omega
  | case4 f rest => simp [weightOf, Event.weight, Nat.add_comm]
  | case5 rest => simp [weightOf, Event.weight]

/-- A read uses up at least what it delivers, and a failing read at least itself. -/
theorem read_weight (s : Stream) (want : Nat) :
    (s.read want).2.weight + (match (s.read want).1 with | .ok b => b.length | .error _ => 1)
      ≤ s.weight := by
  have h := answer_weight want s.script
  unfold read weight
  split <;> simp_all

/-! ## Gathering -/

/-- `gather` with the bytes that have come already, last one first. -/
def gatherOnto (got : Bytes) (want : Nat) (s : Stream) : Except Fault Bytes × Stream :=
  if want = 0 then (.ok got.reverse, s) else
  match h : s.read want with
  | (.ok [], t) => (.ok got.reverse, t)
  | (.ok (b :: bs), t) => gatherOnto ((b :: bs).reverseAux got) (want - (bs.length + 1)) t
  | (.error f, t) => if f.isInterruption then gatherOnto got want t else (.error f, t)
termination_by s.weight
decreasing_by
  all_goals
    have hw := read_weight s want
    rw [h] at hw
    simp at hw
    omega

/-- Reads until `want` bytes have come, trying interrupted reads again; fewer bytes mean that the
data ended. The bytes gathered before a failure are lost to the caller. -/
def gather (want : Nat) (s : Stream) : Except Fault Bytes × Stream := gatherOnto [] want s

/-- As `gather`, but fewer bytes than wanted are a failure. -/
def exactly (want : Nat) (s : Stream) : Except Fault Bytes × Stream :=
  match s.gather want with
  | (.ok b, t) => if b.length < want then (.error .shortRead, t) else (.ok b, t)
  | (.error f, t) => (.error f, t)

private theorem gatherOnto_weight (got : Bytes) (want : Nat) (s : Stream) :
    match gatherOnto got want s with
    | (.ok b, t) => t.weight + b.length ≤ s.weight + got.length
    | (.error _, t) => t.weight ≤ s.weight := by
  fun_induction gatherOnto got want s with
  | case1 => simp
  | case2 got want s hw t h =>
    have hread := read_weight s want
    rw [h] at hread
    simp only [List.length_nil, List.length_reverse] at hread ⊢
    omega
  | case3 got want s hw b bs t h ih =>
    have hread := read_weight s want
    rw [h] at hread
    simp only [List.length_cons] at hread
    split at ih
    · simp only [List.reverseAux_eq, List.length_append, List.length_reverse,
        List.length_cons] at ih
      omega
    · omega
  | case4 got want s hw f t h hf ih =>
    have hread := read_weight s want
    rw [h] at hread
    simp only at hread
    split at ih
    · omega
    · omega
  | case5 got want s hw f t h hf =>
    have hread := read_weight s want
    rw [h] at hread
    simp only at hread ⊢
    omega

theorem gather_weight_le (want : Nat) (s : Stream) : (s.gather want).2.weight ≤ s.weight := by
  have hle := gatherOnto_weight [] want s
  rw [gather]
  split at hle
  · next h =>
    rw [h]
    exact Nat.le_trans (Nat.le_add_right _ _) hle
  · next h => rwa [h]

/-- Gathered bytes are used up. -/
theorem gather_weight_add_le {want : Nat} {s t : Stream} {b : Bytes}
    (h : s.gather want = (.ok b, t)) : t.weight + b.length ≤ s.weight := by
  have := gatherOnto_weight [] want s
  rw [gather] at h
  simpa [h] using this

theorem exactly_weight_le (want : Nat) (s : Stream) : (s.exactly want).2.weight ≤ s.weight := by
  have := gather_weight_le want s
  unfold exactly
  split
  · next h => rw [h] at this; split <;> exact this
  · next h => rw [h] at this; exact this

theorem exactly_weight_lt {want : Nat} {s t : Stream} {b : Bytes} (hw : 0 < want)
    (h : s.exactly want = (.ok b, t)) : t.weight < s.weight := by
  unfold exactly at h
  split at h
  · next g =>
    have := gather_weight_add_le g
    split at h
    · cases h
    · cases h; omega
  · cases h

end Stream
end CollectionDelta
