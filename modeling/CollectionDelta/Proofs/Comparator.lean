import CollectionDelta.Comparator.Buffers
import CollectionDelta.Proofs.Stream.Delivery

/-!
The comparison of two streams is the comparison of what they hold.

* `Judged`: the answers that the bytes and the endings of two streams allow.
* `equal_judged`: every comparison gives one of them, for every chunk size and whatever the pieces
  in which the streams hand over; `equal_holds` is the case without failures.
* `comparison_exact`: the same after any earlier comparisons through the same buffers.
-/

namespace CollectionDelta.Comparator

open CollectionDelta.Stream (Ending)

/-- What may be said of streams that hold `b` and `b'`: that they are equal if they are and both
end; that they are not if they differ where both have a byte, or one has ended and the other has
more; or the failure that one of them ends in. -/
inductive Judged (b b' : Bytes) (e e' : Ending) : Except Fault Bool → Prop
  | same (h : b = b') (he : e = .ended) (he' : e' = .ended) : Judged b b' e e' (.ok true)
  | different {i : Nat} {x x' : UInt8} (hx : b[i]? = some x) (hx' : b'[i]? = some x')
      (hne : x ≠ x') : Judged b b' e e' (.ok false)
  | shorter (he : e = .ended) (h : b.length < b'.length) : Judged b b' e e' (.ok false)
  | longer (he' : e' = .ended) (h : b'.length < b.length) : Judged b b' e e' (.ok false)
  | first {f : Fault} (he : e = .broken f) : Judged b b' e e' (.error f)
  | second {f : Fault} (he' : e' = .broken f) : Judged b b' e e' (.error f)

variable {b b' : Bytes} {e e' : Ending} {r : Except Fault Bool}

/-- Equal bytes in front do not change what may be said. -/
theorem Judged.append (c : Bytes) (h : Judged b b' e e' r) :
    Judged (c ++ b) (c ++ b') e e' r := by
  cases h with
  | same h he he' => exact .same (by rw [h]) he he'
  | @different i x x' hx hx' hne =>
    have hget : ∀ d : Bytes, (c ++ d)[c.length + i]? = d[i]? := by
      intro d
      rw [List.getElem?_append_right (Nat.le_add_right _ _), Nat.add_sub_cancel_left]
    exact .different ((hget b).trans hx) ((hget b').trans hx') hne
  | shorter he h =>
    refine .shorter he ?_
    rw [List.length_append, List.length_append]
    omega
  | longer he' h =>
    refine .longer he' ?_
    rw [List.length_append, List.length_append]
    omega
  | first he => exact .first he
  | second he' => exact .second he'

theorem Judged.eq_true_iff (h : Judged b b' e e' r) :
    r = .ok true ↔ e = .ended ∧ e' = .ended ∧ b = b' := by
  constructor
  · rintro rfl
    cases h with
    | same h he he' => exact ⟨he, he', h⟩
  · rintro ⟨rfl, rfl, rfl⟩
    cases h with
    | same => rfl
    | different hx hx' hne =>
      rw [hx] at hx'
      exact absurd (Option.some.inj hx') hne
    | shorter _ h => exact absurd h (Nat.lt_irrefl _)
    | longer _ h => exact absurd h (Nat.lt_irrefl _)
    | first he => cases he
    | second he' => cases he'

theorem exists_getElem?_ne {a a' : Bytes} (hlen : a.length = a'.length) (hne : a ≠ a') :
    ∃ (i : Nat) (x x' : UInt8), a[i]? = some x ∧ a'[i]? = some x' ∧ x ≠ x' := by
  refine Classical.byContradiction fun hnone => hne (List.ext_getElem hlen fun i hi hi' => ?_)
  refine Classical.byContradiction fun hx => hnone ⟨i, a[i], a'[i], ?_, ?_, hx⟩
  · exact List.getElem?_eq_getElem hi
  · exact List.getElem?_eq_getElem hi'

/-- Chunks that differ show that the streams do, for a chunk is short only where the data end. -/
theorem judged_of_chunks_ne {k : Nat} {c c' : Bytes} (hne : c ≠ c') (hc : c.length ≤ k)
    (hc' : c'.length ≤ k) (hend : c.length < k → b = [] ∧ e = .ended)
    (hend' : c'.length < k → b' = [] ∧ e' = .ended) :
    Judged (c ++ b) (c' ++ b') e e' (.ok false) := by
  rcases Nat.lt_trichotomy c.length c'.length with hlt | heq | hlt
  · obtain ⟨rfl, he⟩ := hend (by omega)
    refine .shorter he ?_
    rw [List.append_nil, List.length_append]
    omega
  · obtain ⟨i, x, x', hx, hx', hxx⟩ := exists_getElem?_ne heq hne
    have hi : i < c.length := (List.getElem?_eq_some_iff.1 hx).1
    refine .different (i := i) ?_ ?_ hxx
    · rw [List.getElem?_append_left hi, hx]
    · rw [List.getElem?_append_left (heq ▸ hi), hx']
  · obtain ⟨rfl, he'⟩ := hend' (by omega)
    refine .longer he' ?_
    rw [List.append_nil, List.length_append]
    omega

theorem equal_judged (c : Comparator) {s s' : Stream} {n n' : Nat} (h : s.Holds n b e)
    (h' : s'.Holds n' b' e') : Judged b b' e e' (c.equal s s').equal := by
  have hpos := c.chunk_pos
  fun_induction c.equal s s' generalizing n n' b b' with
  | case1 s s' f t hg => exact .first (Stream.gather_error hg h)
  | case2 s s' t hg f t' hg' => exact .second (Stream.gather_error hg' h')
  | case3 s s' t hg y t' hg' =>
    obtain ⟨more, rfl, -, -, hend⟩ := Stream.gather_ok hg h
    obtain ⟨more', rfl, -, -, hend'⟩ := Stream.gather_ok hg' h'
    obtain ⟨rfl, he⟩ := hend hpos
    cases y with
    | nil =>
      obtain ⟨rfl, he'⟩ := hend' hpos
      exact .same rfl he he'
    | cons x xs => exact .shorter he (by simp)
  | case4 s s' x xs t hg f t' hg' => exact .second (Stream.gather_error hg' h')
  | case5 s s' x xs t hg t' hg' ih =>
    obtain ⟨more, rfl, ht, -, -⟩ := Stream.gather_ok hg h
    obtain ⟨more', rfl, ht', -, -⟩ := Stream.gather_ok hg' h'
    exact (ih ht ht').append (x :: xs)
  | case6 s s' x xs t hg y t' hg' hne =>
    obtain ⟨more, rfl, -, hle, hend⟩ := Stream.gather_ok hg h
    obtain ⟨more', rfl, -, hle', hend'⟩ := Stream.gather_ok hg' h'
    exact judged_of_chunks_ne hne hle hle' hend hend'

theorem equal_holds (c : Comparator) {s s' : Stream} {n n' : Nat} {b b' : Bytes}
    (h : s.Holds n b .ended) (h' : s'.Holds n' b' .ended) :
    (c.equal s s').equal = .ok (decide (b = b')) := by
  have hj := c.equal_judged h h'
  by_cases hb : b = b'
  · rw [decide_eq_true hb]
    exact hj.eq_true_iff.2 ⟨rfl, rfl, hb⟩
  · rw [decide_eq_false hb]
    generalize (c.equal s s').equal = r at hj
    cases hj with
    | same h => exact absurd h hb
    | first he => cases he
    | second he' => cases he'
    | _ => rfl

/-! ## Comparisons one after another -/

/-- The answer about two streams after comparisons of others through the same buffers. -/
def answerAfter (chunk : Nat) (earlier : List (Stream × Stream)) (s s' : Stream) :
    Except Fault Bool :=
  ((ofChunk chunk).equalIn ((ofChunk chunk).equalAll {} earlier).2 s s').1.equal

/-- Streams are said to be equal if and only if both end and hold the same bytes, and to be unequal
only if what they hold shows it; a failure is always that of one of them. Neither the chunk size nor
the comparisons before can turn one answer into the other. -/
theorem comparison_exact {s s' : Stream} {n n' : Nat} (h : s.Holds n b e) (h' : s'.Holds n' b' e')
    (chunk : Nat) (earlier : List (Stream × Stream)) :
    (answerAfter chunk earlier s s' = .ok true ↔ e = .ended ∧ e' = .ended ∧ b = b') ∧
      (answerAfter chunk earlier s s' = .ok false →
        (∃ (i : Nat) (x x' : UInt8), b[i]? = some x ∧ b'[i]? = some x' ∧ x ≠ x') ∨
          (e = .ended ∧ b.length < b'.length) ∨ (e' = .ended ∧ b'.length < b.length)) ∧
      (∀ f, answerAfter chunk earlier s s' = .error f → e = .broken f ∨ e' = .broken f) ∧
      (e = .ended → e' = .ended → ∃ same, answerAfter chunk earlier s s' = .ok same) ∧
      ∀ chunk' earlier', answerAfter chunk earlier s s' = .ok true →
        answerAfter chunk' earlier' s s' ≠ .ok false := by
  have hj : ∀ chunk earlier, Judged b b' e e' (answerAfter chunk earlier s s') := by
    intro chunk earlier
    rw [answerAfter, equalIn_fst]
    exact equal_judged _ h h'
  refine ⟨(hj chunk earlier).eq_true_iff, ?_, ?_, ?_, ?_⟩
  · intro hfalse
    have hanswer := hj chunk earlier
    rw [hfalse] at hanswer
    cases hanswer with
    | different hx hx' hne => exact .inl ⟨_, _, _, hx, hx', hne⟩
    | shorter he hlt => exact .inr (.inl ⟨he, hlt⟩)
    | longer he' hlt => exact .inr (.inr ⟨he', hlt⟩)
  · intro f herror
    have hanswer := hj chunk earlier
    rw [herror] at hanswer
    cases hanswer with
    | first he => exact .inl he
    | second he' => exact .inr he'
  · rintro rfl rfl
    have hanswer := hj chunk earlier
    generalize answerAfter chunk earlier s s' = r at hanswer
    cases hanswer with
    | first he => cases he
    | second he' => cases he'
    | _ => exact ⟨_, rfl⟩
  · intro chunk' earlier' htrue hfalse
    have hsame := (hj chunk earlier).eq_true_iff.1 htrue
    rw [(hj chunk' earlier').eq_true_iff.2 hsame] at hfalse
    cases hfalse

/-- Two comparisons come first, one that fails halfway and one that leaves longer bytes behind. -/
theorem comparison_in_pieces :
    let interruption : Fault := ⟨.interrupted, ""⟩
    let s : Stream := { script :=
      [.fail interruption, .data [1, 2, 3] (some 1), .fail interruption, .data [4] none] }
    let s' : Stream := { script := [.data [1, 2] none, .data [3, 4] none] }
    let earlier : List (Stream × Stream) :=
      [(⟨[.data [9, 9, 9] none, .fail .full], 0, 0⟩, .ofBytes [9, 9, 9, 9]),
        (.ofBytes [7, 7, 7, 7], .ofBytes [7, 7, 7, 8])]
    answerAfter 3 earlier s s' = .ok true ∧ answerAfter 2 [] s s' ≠ .ok false := by
  intro interruption s s' earlier
  have h : s.Holds 0 [1, 2, 3, 4] .ended :=
    ⟨.interrupted rfl (.data (by decide) (.interrupted rfl (.data (by decide) .ended))), rfl⟩
  have h' : s'.Holds 0 [1, 2, 3, 4] .ended :=
    ⟨.data (by decide) (.data (by decide) .ended), rfl⟩
  obtain ⟨htrue, -, -, -, hchunk⟩ := comparison_exact h h' 3 earlier
  have hanswer := htrue.2 ⟨rfl, rfl, rfl⟩
  exact ⟨hanswer, hchunk 2 [] hanswer⟩

end CollectionDelta.Comparator
