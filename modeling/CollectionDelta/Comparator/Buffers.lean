import CollectionDelta.Comparator

/-!
Comparisons through buffers that are kept from one comparison to the next.

* `Stream.fill`: reads into a buffer, over what an earlier use has left in it; `fill_of_gather` says
  that the bytes read are those that gathering gives.
* `Comparator.Buffers`: what the two chunk buffers of a comparator hold.
* `Comparator.equalIn`: a comparison through the buffers; `equalIn_fst` says that it is the
  comparison, whatever they hold.
* `Comparator.equalAll`: comparisons one after another, with one pair of buffers.
-/

namespace CollectionDelta

namespace Stream

/-- How much of a buffer was filled, what it holds then, and what is left of the stream. -/
structure Filling where
  filled : Except Fault Nat
  buffer : Bytes
  rest : Stream

/-- `fill` where `got` has been filled already, last byte first, and `stale` is what the buffer
holds behind that. -/
def fillOnto (got stale : Bytes) (want : Nat) (s : Stream) : Filling :=
  if want = 0 then ⟨.ok got.length, got.reverse ++ stale, s⟩ else
  match h : s.read want with
  | (.ok [], t) => ⟨.ok got.length, got.reverse ++ stale, t⟩
  | (.ok (b :: bs), t) =>
    fillOnto ((b :: bs).reverseAux got) (stale.drop (bs.length + 1)) (want - (bs.length + 1)) t
  | (.error f, t) =>
    if f.isInterruption then fillOnto got stale want t else ⟨.error f, got.reverse ++ stale, t⟩
termination_by s.weight
decreasing_by
  all_goals
    have hw := read_weight s want
    rw [h] at hw
    simp at hw
    omega

/-- Reads over the first `want` bytes of a buffer until they are filled, the data end or a read
fails; interrupted reads are tried again. A buffer is as much as was ever written to it: behind that
it is as it was made. -/
def fill (want : Nat) (buffer : Bytes) (s : Stream) : Filling := fillOnto [] buffer want s

private theorem fillOnto_of_gatherOnto (got stale : Bytes) (want : Nat) (s : Stream) :
    match gatherOnto got want s with
    | (.ok b, t) => ∃ more, fillOnto got stale want s = ⟨.ok b.length, b ++ more, t⟩
    | (.error f, t) => ∃ buffer, fillOnto got stale want s = ⟨.error f, buffer, t⟩ := by
  fun_induction gatherOnto got want s generalizing stale with
  | case1 got s => exact ⟨stale, by rw [fillOnto, if_pos rfl, List.length_reverse]⟩
  | case2 got want s hw t hr =>
    refine ⟨stale, ?_⟩
    rw [fillOnto, if_neg hw]
    split <;> simp_all
  | case3 got want s hw b bs t hr ih =>
    have hstep : fillOnto got stale want s = fillOnto ((b :: bs).reverseAux got)
        (stale.drop (bs.length + 1)) (want - (bs.length + 1)) t := by
      rw [fillOnto, if_neg hw]
      split <;> simp_all
    rw [hstep]
    exact ih _
  | case4 got want s hw f t hr hf ih =>
    have hstep : fillOnto got stale want s = fillOnto got stale want t := by
      rw [fillOnto, if_neg hw]
      split <;> simp_all
    rw [hstep]
    exact ih _
  | case5 got want s hw f t hr hf =>
    refine ⟨got.reverse ++ stale, ?_⟩
    rw [fillOnto, if_neg hw]
    split <;> simp_all

/-- Filling comes to what gathering does: the buffer begins with the bytes gathered. -/
theorem fill_of_gather {want : Nat} {s t : Stream} {b : Bytes} (h : s.gather want = (.ok b, t))
    (buffer : Bytes) : ∃ more, s.fill want buffer = ⟨.ok b.length, b ++ more, t⟩ := by
  have hfill := fillOnto_of_gatherOnto [] buffer want s
  rw [gather] at h
  rw [h] at hfill
  exact hfill

theorem fill_of_gather_error {want : Nat} {s t : Stream} {f : Fault}
    (h : s.gather want = (.error f, t)) (buffer : Bytes) :
    ∃ buffer', s.fill want buffer = ⟨.error f, buffer', t⟩ := by
  have hfill := fillOnto_of_gatherOnto [] buffer want s
  rw [gather] at h
  rw [h] at hfill
  exact hfill

/-- Filled bytes are used up. -/
theorem fill_weight_add_le {want n : Nat} {s t : Stream} {buffer buffer' : Bytes}
    (h : s.fill want buffer = ⟨.ok n, buffer', t⟩) : t.weight + n ≤ s.weight := by
  cases hg : s.gather want with
  | mk r u =>
    cases r with
    | ok b =>
      obtain ⟨more, hfill⟩ := fill_of_gather hg buffer
      rw [h] at hfill
      cases hfill
      exact gather_weight_add_le hg
    | error f =>
      obtain ⟨more, hfill⟩ := fill_of_gather_error hg buffer
      rw [h] at hfill
      cases hfill

end Stream

namespace Comparator

/-- What the two chunk buffers hold; nothing before the first comparison. -/
structure Buffers where
  first : Bytes := []
  second : Bytes := []

/-- The comparison of two streams, and what the buffers hold after it. -/
def equalIn (c : Comparator) (u : Buffers) (a b : Stream) : Verdict × Buffers :=
  match _ha : a.fill c.chunk u.first with
  | ⟨.error f, x, a'⟩ => (⟨.error f, a', b⟩, ⟨x, u.second⟩)
  | ⟨.ok 0, x, a'⟩ =>
    match b.fill c.chunk u.second with
    | ⟨.error f, y, b'⟩ => (⟨.error f, a', b'⟩, ⟨x, y⟩)
    | ⟨.ok m, y, b'⟩ => (⟨.ok (m == 0), a', b'⟩, ⟨x, y⟩)
  | ⟨.ok (n + 1), x, a'⟩ =>
    match b.fill c.chunk u.second with
    | ⟨.error f, y, b'⟩ => (⟨.error f, a', b'⟩, ⟨x, y⟩)
    | ⟨.ok m, y, b'⟩ =>
      if n + 1 = m ∧ x.take (n + 1) = y.take m then equalIn c ⟨x, y⟩ a' b'
      else (⟨.ok false, a', b'⟩, ⟨x, y⟩)
termination_by a.weight
decreasing_by
  have := Stream.fill_weight_add_le _ha
  omega

/-- One chunk of each stream, and then the rest. -/
private theorem equalIn_eq (c : Comparator) (u : Buffers) (a b : Stream) :
    c.equalIn u a b = match a.fill c.chunk u.first with
      | ⟨.error f, x, a'⟩ => (⟨.error f, a', b⟩, ⟨x, u.second⟩)
      | ⟨.ok 0, x, a'⟩ =>
        match b.fill c.chunk u.second with
        | ⟨.error f, y, b'⟩ => (⟨.error f, a', b'⟩, ⟨x, y⟩)
        | ⟨.ok m, y, b'⟩ => (⟨.ok (m == 0), a', b'⟩, ⟨x, y⟩)
      | ⟨.ok (n + 1), x, a'⟩ =>
        match b.fill c.chunk u.second with
        | ⟨.error f, y, b'⟩ => (⟨.error f, a', b'⟩, ⟨x, y⟩)
        | ⟨.ok m, y, b'⟩ =>
          if n + 1 = m ∧ x.take (n + 1) = y.take m then c.equalIn ⟨x, y⟩ a' b'
          else (⟨.ok false, a', b'⟩, ⟨x, y⟩) := by
  rw [equalIn]
  split <;> simp_all

/-- A comparison through buffers is the comparison, whatever the buffers hold before. -/
theorem equalIn_fst (c : Comparator) (u : Buffers) (a b : Stream) :
    (c.equalIn u a b).1 = c.equal a b := by
  fun_induction equal c a b generalizing u with
  | case1 a b f a' ha =>
    obtain ⟨x, hx⟩ := Stream.fill_of_gather_error ha u.first
    rw [equalIn_eq, hx]
  | case2 a b a' ha f b' hb =>
    obtain ⟨x, hx⟩ := Stream.fill_of_gather ha u.first
    obtain ⟨y, hy⟩ := Stream.fill_of_gather_error hb u.second
    rw [equalIn_eq, hx, hy]
    rfl
  | case3 a b a' ha bytes b' hb =>
    obtain ⟨x, hx⟩ := Stream.fill_of_gather ha u.first
    obtain ⟨y, hy⟩ := Stream.fill_of_gather hb u.second
    rw [equalIn_eq, hx, hy]
    cases bytes <;> rfl
  | case4 a b c₀ cs a' ha f b' hb =>
    obtain ⟨x, hx⟩ := Stream.fill_of_gather ha u.first
    obtain ⟨y, hy⟩ := Stream.fill_of_gather_error hb u.second
    rw [equalIn_eq, hx, hy]
    rfl
  | case5 a b c₀ cs a' ha b' hb ih =>
    obtain ⟨x, hx⟩ := Stream.fill_of_gather ha u.first
    obtain ⟨y, hy⟩ := Stream.fill_of_gather hb u.second
    rw [equalIn_eq, hx, hy]
    simp only [List.length_cons, List.take_left']
    exact ih _
  | case6 a b c₀ cs a' ha bytes b' hb hne =>
    obtain ⟨x, hx⟩ := Stream.fill_of_gather ha u.first
    obtain ⟨y, hy⟩ := Stream.fill_of_gather hb u.second
    have hdiffer : ¬ (cs.length + 1 = bytes.length ∧
        (c₀ :: cs ++ x).take (cs.length + 1) = (bytes ++ y).take bytes.length) := by
      rintro ⟨-, htake⟩
      have hfirst : (c₀ :: cs ++ x).take (cs.length + 1) = c₀ :: cs := List.take_left' rfl
      have hsecond : (bytes ++ y).take bytes.length = bytes := List.take_left' rfl
      exact hne (hfirst.symm.trans (htake.trans hsecond))
    rw [equalIn_eq, hx, hy]
    simp only [List.length_cons]
    rw [if_neg hdiffer]

/-- Comparisons of pairs of streams in order, with the buffers that the ones before have left. -/
def equalAll (c : Comparator) (u : Buffers) : List (Stream × Stream) → List Verdict × Buffers
  | [] => ([], u)
  | (a, b) :: rest =>
    let (v, u') := c.equalIn u a b
    let (vs, u'') := equalAll c u' rest
    (v :: vs, u'')

end Comparator
end CollectionDelta
