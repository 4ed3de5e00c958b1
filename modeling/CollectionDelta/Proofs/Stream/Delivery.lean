import CollectionDelta.Stream

/-!
What a stream holds, apart from the manner in which it hands it over.

* `Delivers`: the bytes of a script and how they end, for pieces of any sizes and any number of
  interruptions in between; `delivers_unique` says that a script has only one such reading.
* `Holds`: the same of a stream, with the number of bytes that it has handed over already.
* `read_holds`: what one read can meet.
* `gather_holds`, `gather_short`, `gather_broken`: gathering depends on what a stream holds only;
  `gather_ended` is the case without a failure, and `gather_ok` and `gather_error` say it from the
  outcome.
* `exactly_holds`, `exactly_short`, `exactly_broken`: the same of exact reads.
-/

namespace CollectionDelta.Stream

/-- The data end for good, or in a failure that is no interruption. -/
inductive Ending
  | ended
  | broken (fault : Fault)
  deriving DecidableEq, Repr

inductive Delivers : List Event → Bytes → Ending → Prop
  | ended : Delivers [] [] .ended
  | broken {f : Fault} {rest : List Event} (hf : f.isInterruption = false) :
      Delivers (.fail f :: rest) [] (.broken f)
  | interrupted {f : Fault} {rest : List Event} {b : Bytes} {e : Ending}
      (hf : f.isInterruption = true) (h : Delivers rest b e) : Delivers (.fail f :: rest) b e
  | data {bytes : Bytes} {atMost : Option Nat} {rest : List Event} {b : Bytes} {e : Ending}
      (ha : atMost ≠ some 0) (h : Delivers rest b e) :
      Delivers (.data bytes atMost :: rest) (bytes ++ b) e

/-- The stream has handed over `n` bytes, and `b` is to come before its end. -/
structure Holds (s : Stream) (n : Nat) (b : Bytes) (e : Ending) : Prop where
  delivers : Delivers s.script b e
  delivered_eq : s.delivered = n

theorem holds_ofBytes (b : Bytes) : (ofBytes b).Holds 0 b .ended := by
  refine ⟨?_, rfl⟩
  have h : Delivers [.data b none] (b ++ []) .ended := .data (by simp) .ended
  rwa [List.append_nil] at h

theorem delivers_unique {script : List Event} {b b' : Bytes} {e e' : Ending}
    (h : Delivers script b e) (h' : Delivers script b' e') : b = b' ∧ e = e' := by
  induction h generalizing b' with
  | ended => cases h'; exact ⟨rfl, rfl⟩
  | broken hf =>
    cases h' with
    | broken => exact ⟨rfl, rfl⟩
    | interrupted hf' => simp [hf] at hf'
  | interrupted hf _ ih =>
    cases h' with
    | broken hf' => simp [hf] at hf'
    | interrupted _ h'' => exact ih h''
  | data _ _ ih =>
    cases h' with
    | data _ h'' =>
      obtain ⟨rfl, rfl⟩ := ih h''
      exact ⟨rfl, rfl⟩

theorem holds_unique {s : Stream} {n n' : Nat} {b b' : Bytes} {e e' : Ending}
    (h : s.Holds n b e) (h' : s.Holds n' b' e') : n = n' ∧ b = b' ∧ e = e' :=
  ⟨h.delivered_eq.symm.trans h'.delivered_eq, delivers_unique h.delivers h'.delivers⟩

/-! ## One read -/

/-- What a read can meet where `b` is to come: an interruption, bytes, the end of the data, or the
failure that the data end in. -/
inductive Met (n want : Nat) : Bytes → Ending → Except Fault Bytes × Stream → Prop
  | interruption {b : Bytes} {e : Ending} {f : Fault} {t : Stream}
      (hf : f.isInterruption = true) (ht : t.Holds n b e) : Met n want b e (.error f, t)
  | bytes {x : UInt8} {xs b : Bytes} {e : Ending} {t : Stream} (hw : xs.length + 1 ≤ want)
      (ht : t.Holds (n + (xs.length + 1)) b e) : Met n want (x :: xs ++ b) e (.ok (x :: xs), t)
  | ended {t : Stream} (ht : t.Holds n [] .ended) : Met n want [] .ended (.ok [], t)
  | broken {f : Fault} {t : Stream} (hf : f.isInterruption = false) (ht : t.delivered = n) :
      Met n want [] (.broken f) (.error f, t)

theorem read_holds {s : Stream} {n want : Nat} {b : Bytes} {e : Ending} (hw : 0 < want)
    (h : s.Holds n b e) : Met n want b e (s.read want) := by
  obtain ⟨script, delivered, calls⟩ := s
  obtain ⟨hd, rfl⟩ := h
  dsimp only at hd
  induction hd with
  | ended => exact .ended ⟨.ended, rfl⟩
  | broken hf => exact .broken hf rfl
  | interrupted hf hd => exact .interruption hf ⟨hd, rfl⟩
  | @data bytes atMost rest b e ha hd ih =>
    cases bytes with
    | nil => exact ih
    | cons x xs =>
      obtain ⟨k, hk⟩ : ∃ k, min want (atMost.getD want) = k + 1 := by
        cases atMost with
        | none => exact ⟨want - 1, by simp; omega⟩
        | some m =>
          have hm : m ≠ 0 := fun h => ha (by rw [h])
          exact ⟨min want m - 1, by simp; omega⟩
      have hlen : (xs.take k).length + 1 ≤ want := by simp; omega
      have hb : x :: xs ++ b = x :: xs.take k ++ (xs.drop k ++ b) := by
        rw [List.cons_append, List.cons_append, ← List.append_assoc, List.take_append_drop]
      simp only [read, answer, hk, List.take_succ_cons, List.drop_succ_cons]
      rw [hb]
      exact .bytes hlen ⟨.data ha hd, rfl⟩

/-! ## Gathering -/

/-- The outcome of gathering `want` bytes after `got` where `b` is to come: all of them, what there
is before the end of the data, or the failure that the data end in. -/
inductive Gathered (got : Bytes) (n want : Nat) (b : Bytes) :
    Ending → Except Fault Bytes × Stream → Prop
  | full {e : Ending} {t : Stream} (hb : want ≤ b.length)
      (ht : t.Holds (n + want) (b.drop want) e) :
      Gathered got n want b e (.ok (got.reverse ++ b.take want), t)
  | short {t : Stream} (hb : b.length < want) (ht : t.Holds (n + b.length) [] .ended) :
      Gathered got n want b .ended (.ok (got.reverse ++ b), t)
  | broken {f : Fault} {t : Stream} (hb : b.length < want) (ht : t.delivered = n + b.length) :
      Gathered got n want b (.broken f) (.error f, t)

/-- Bytes that come first may as well have been gathered before. -/
private theorem Gathered.cons {got xs b : Bytes} {x : UInt8} {n want : Nat} {e : Ending}
    {r : Except Fault Bytes × Stream} (hw : xs.length + 1 ≤ want)
    (h : Gathered ((x :: xs).reverseAux got) (n + (xs.length + 1)) (want - (xs.length + 1)) b e r) :
    Gathered got n want (x :: xs ++ b) e r := by
  have hlen : (x :: xs ++ b).length = xs.length + 1 + b.length := by simp; omega
  have hrev : ∀ c : Bytes, ((x :: xs).reverseAux got).reverse ++ c
      = got.reverse ++ (x :: xs ++ c) := by
    intro c
    simp [List.reverseAux_eq]
  obtain ⟨k, rfl⟩ := Nat.exists_eq_add_of_le hw
  rw [Nat.add_sub_cancel_left] at h
  cases h with
  | full hb ht =>
    have htake : (x :: xs ++ b).take (xs.length + 1 + k) = x :: xs ++ b.take k :=
      @List.take_length_add_append _ (x :: xs) b k
    have hdrop : (x :: xs ++ b).drop (xs.length + 1 + k) = b.drop k :=
      @List.drop_length_add_append _ (x :: xs) b k
    rw [hrev, ← htake]
    exact .full (by omega) (by rw [hdrop, ← Nat.add_assoc]; exact ht)
  | short hb ht =>
    rw [hrev]
    exact .short (by omega) (by rw [hlen, ← Nat.add_assoc]; exact ht)
  | broken hb ht => exact .broken (by omega) (by omega)

private theorem gatherOnto_holds (got : Bytes) (want : Nat) {n : Nat} {s : Stream} {b : Bytes}
    {e : Ending} (h : s.Holds n b e) : Gathered got n want b e (gatherOnto got want s) := by
  fun_induction gatherOnto got want s generalizing n b with
  | case1 got s =>
    have hg : Gathered got n 0 b e (.ok (got.reverse ++ b.take 0), s) := .full (Nat.zero_le _) h
    simpa using hg
  | case2 got want s hw t hr =>
    have hm := read_holds (Nat.pos_of_ne_zero hw) h
    rw [hr] at hm
    cases hm with
    | ended ht =>
      have hg : Gathered got n want [] .ended (.ok (got.reverse ++ []), t) :=
        .short (Nat.pos_of_ne_zero hw) ht
      simpa using hg
  | case3 got want s hw x xs t hr ih =>
    have hm := read_holds (Nat.pos_of_ne_zero hw) h
    rw [hr] at hm
    cases hm with
    | bytes hlen ht => exact .cons hlen (ih ht)
  | case4 got want s hw f t hr hf ih =>
    have hm := read_holds (Nat.pos_of_ne_zero hw) h
    rw [hr] at hm
    cases hm with
    | interruption _ ht => exact ih ht
    | broken hf' => simp [hf] at hf'
  | case5 got want s hw f t hr hf =>
    have hm := read_holds (Nat.pos_of_ne_zero hw) h
    rw [hr] at hm
    cases hm with
    | interruption hf' => exact absurd hf' hf
    | broken _ ht => exact .broken (Nat.pos_of_ne_zero hw) ht

theorem gather_holds {s : Stream} {n want : Nat} {b : Bytes} {e : Ending} (hw : want ≤ b.length)
    (h : s.Holds n b e) :
    ∃ t, s.gather want = (.ok (b.take want), t) ∧ t.Holds (n + want) (b.drop want) e := by
  have hg := gatherOnto_holds [] want h
  unfold gather
  generalize gatherOnto [] want s = r at hg
  cases hg with
  | full _ ht => exact ⟨_, rfl, ht⟩
  | short hb => omega
  | broken hb => omega

theorem gather_short {s : Stream} {n want : Nat} {b : Bytes} (hw : b.length < want)
    (h : s.Holds n b .ended) :
    ∃ t, s.gather want = (.ok b, t) ∧ t.Holds (n + b.length) [] .ended := by
  have hg := gatherOnto_holds [] want h
  unfold gather
  generalize gatherOnto [] want s = r at hg
  cases hg with
  | full hb => omega
  | short _ ht => exact ⟨_, rfl, ht⟩

/-- A stream without a failure gives as much as it has of what is wanted. -/
theorem gather_ended {s : Stream} {n : Nat} {b : Bytes} (h : s.Holds n b .ended) (want : Nat) :
    ∃ t, s.gather want = (.ok (b.take want), t) ∧
      t.Holds (n + min b.length want) (b.drop want) .ended := by
  by_cases hw : want ≤ b.length
  · obtain ⟨t, hg, ht⟩ := gather_holds hw h
    rw [Nat.min_eq_right hw]
    exact ⟨t, hg, ht⟩
  · have hlt : b.length < want := Nat.lt_of_not_le hw
    obtain ⟨t, hg, ht⟩ := gather_short hlt h
    rw [Nat.min_eq_left (Nat.le_of_lt hlt), List.take_of_length_le (Nat.le_of_lt hlt),
      List.drop_eq_nil_of_le (Nat.le_of_lt hlt)]
    exact ⟨t, hg, ht⟩

theorem gather_broken {s : Stream} {n want : Nat} {b : Bytes} {f : Fault} (hw : b.length < want)
    (h : s.Holds n b (.broken f)) :
    ∃ t, s.gather want = (.error f, t) ∧ t.delivered = n + b.length := by
  have hg := gatherOnto_holds [] want h
  unfold gather
  generalize gatherOnto [] want s = r at hg
  cases hg with
  | full hb => omega
  | broken _ ht => exact ⟨_, rfl, ht⟩

/-- Bytes that were gathered come first, and are fewer than wanted only at the end of the data. -/
theorem gather_ok {s t : Stream} {n want : Nat} {b c : Bytes} {e : Ending}
    (hg : s.gather want = (.ok c, t)) (h : s.Holds n b e) :
    ∃ more, b = c ++ more ∧ t.Holds (n + c.length) more e ∧ c.length ≤ want ∧
      (c.length < want → more = [] ∧ e = .ended) := by
  have hgathered := gatherOnto_holds [] want h
  rw [← gather, hg] at hgathered
  cases hgathered with
  | full hb ht =>
    have hlen : (b.take want).length = want := List.length_take_of_le hb
    refine ⟨b.drop want, (List.take_append_drop want b).symm, ?_, Nat.le_of_eq hlen, ?_⟩
    · rw [List.reverse_nil, List.nil_append, hlen]
      exact ht
    · intro hlt
      rw [List.reverse_nil, List.nil_append, hlen] at hlt
      omega
  | short hb ht => exact ⟨[], (List.append_nil b).symm, ht, Nat.le_of_lt hb, fun _ => ⟨rfl, rfl⟩⟩

/-- Gathering fails only with the failure that the data end in. -/
theorem gather_error {s t : Stream} {n want : Nat} {b : Bytes} {e : Ending} {f : Fault}
    (hg : s.gather want = (.error f, t)) (h : s.Holds n b e) : e = .broken f := by
  have hgathered := gatherOnto_holds [] want h
  rw [← gather, hg] at hgathered
  cases hgathered
  rfl

/-! ## Exact reads -/

theorem exactly_holds {s : Stream} {n want : Nat} {b : Bytes} {e : Ending} (hw : want ≤ b.length)
    (h : s.Holds n b e) :
    ∃ t, s.exactly want = (.ok (b.take want), t) ∧ t.Holds (n + want) (b.drop want) e := by
  obtain ⟨t, hg, ht⟩ := gather_holds hw h
  have hlen : ¬ (b.take want).length < want := by simp; omega
  exact ⟨t, by rw [exactly, hg]; exact if_neg hlen, ht⟩

theorem exactly_short {s : Stream} {n want : Nat} {b : Bytes} (hw : b.length < want)
    (h : s.Holds n b .ended) :
    ∃ t, s.exactly want = (.error .shortRead, t) ∧ t.Holds (n + b.length) [] .ended := by
  obtain ⟨t, hg, ht⟩ := gather_short hw h
  exact ⟨t, by simp [exactly, hg, hw], ht⟩

theorem exactly_broken {s : Stream} {n want : Nat} {b : Bytes} {f : Fault} (hw : b.length < want)
    (h : s.Holds n b (.broken f)) :
    ∃ t, s.exactly want = (.error f, t) ∧ t.delivered = n + b.length := by
  obtain ⟨t, hg, ht⟩ := gather_broken hw h
  exact ⟨t, by simp [exactly, hg], ht⟩

end CollectionDelta.Stream
