import CollectionDelta.Format.Encoding

/-!
What has reached a writer once writing is over, for any portions and any interruptions.

* `Writer.Keeps`: what is accepted of a write is added to what was accepted before.
* `Writer.Wrote`: the outcomes of writing some bytes: all of them have been accepted, or a beginning
  that lacks some and a failure; `writeAll_wrote`, `writeEach_wrote`.
* `Writer.Whole`: a writer that accepts each write whole; it accepts all pieces
  (`writeEach_whole`).
* `Writer.Reaches`: a writer after some writes, whatever came of each.
* `Encoding.write_wrote`, `Encoding.write_whole`: the same of an encoding; `taken_of_write_ok`.
* `Writer.Limited`: a writer that fails once it has accepted a number of bytes, and not before;
  `writeEach_limited`, `Encoding.write_limited` say what it accepts, and when that is a failure.
-/

namespace CollectionDelta

namespace Writer

variable {σ : Type} {taken : σ → Bytes} {s t : σ} {b : Bytes}

/-- A writer keeps what it accepts: `taken` are all bytes that it has accepted. -/
structure Keeps [Writer σ] (taken : σ → Bytes) : Prop where
  ok : ∀ {s t : σ} {b : Bytes} {n : Nat}, write s b = (.ok n, t) →
    n ≤ b.length ∧ taken t = taken s ++ b.take n
  error : ∀ {s t : σ} {b : Bytes} {f : Fault}, write s b = (.error f, t) → taken t = taken s

/-- After bytes have been written to the writer `s`: a failure leaves some of them out. -/
inductive Wrote (taken : σ → Bytes) (s : σ) : Bytes → Except Fault Unit × σ → Prop
  | all {b : Bytes} {t : σ} (h : taken t = taken s ++ b) : Wrote taken s b (.ok (), t)
  | part {p x : Bytes} {t : σ} {f : Fault} (hx : x ≠ []) (h : taken t = taken s ++ p) :
      Wrote taken s (p ++ x) (.error f, t)

theorem Wrote.after {p : Bytes} {r : Except Fault Unit × σ} (h : Wrote taken t b r)
    (ht : taken t = taken s ++ p) : Wrote taken s (p ++ b) r := by
  cases h with
  | all h => exact .all (by rw [h, ht, List.append_assoc])
  | part hx h =>
    rw [← List.append_assoc]
    exact .part hx (by rw [h, ht, List.append_assoc])

variable [Writer σ]

theorem writeAll_wrote (hk : Keeps taken) (s : σ) (b : Bytes) :
    Wrote taken s b (writeAll s b) := by
  fun_induction writeAll s b with
  | case1 s => exact .all (List.append_nil _).symm
  | case2 s b hb t hw => exact .part (p := []) hb (hk.ok hw).2
  | case3 s b hb n t hw ih =>
    have hrest := ih.after (hk.ok hw).2
    rwa [List.take_append_drop] at hrest
  | case4 s b hb f t hw hf ih => exact ih.after ((hk.error hw).trans (List.append_nil _).symm)
  | case5 s b hb f t hw hf =>
    exact .part (p := []) hb ((hk.error hw).trans (List.append_nil _).symm)

theorem writeEach_wrote (hk : Keeps taken) (s : σ) (pieces : List Bytes) :
    Wrote taken s pieces.flatten (writeEach s pieces) := by
  induction pieces generalizing s with
  | nil => exact .all (List.append_nil _).symm
  | cons b pieces ih =>
    have hb := writeAll_wrote hk s b
    rw [writeEach, List.flatten_cons]
    generalize writeAll s b = r at hb
    cases hb with
    | all h => exact (ih _).after h
    | part hx h =>
      rw [List.append_assoc]
      exact .part (fun hnil => hx (List.append_eq_nil_iff.1 hnil).1) h

/-! ## A writer that accepts everything -/

theorem writeAll_whole (hb : b ≠ []) (hw : write s b = (.ok b.length, t)) :
    writeAll s b = (.ok (), t) := by
  rw [writeAll, if_neg hb]
  split
  · next u hu =>
    rw [hw] at hu
    simp only [Prod.mk.injEq, Except.ok.injEq, List.length_eq_zero_iff] at hu
    exact absurd hu.1 hb
  · next n u hu =>
    rw [hw] at hu
    simp only [Prod.mk.injEq, Except.ok.injEq] at hu
    obtain ⟨hn, rfl⟩ := hu
    have hdrop : b.drop (n + 1) = [] := List.drop_eq_nil_of_le (Nat.le_of_eq hn)
    rw [hdrop, writeAll, if_pos rfl]
  · next f u hu =>
    rw [hw] at hu
    simp at hu

/-- In each of the states, which writes do not leave, a write is accepted whole. -/
def Whole (states : σ → Prop) : Prop :=
  ∀ s b, states s → ∃ t, write s b = (.ok b.length, t) ∧ states t

theorem writeEach_whole {states : σ → Prop} (h : Whole states) (hs : states s)
    (pieces : List Bytes) : ∃ t, writeEach s pieces = (.ok (), t) ∧ states t := by
  induction pieces generalizing s with
  | nil => exact ⟨s, rfl, hs⟩
  | cons b pieces ih =>
    by_cases hb : b = []
    · obtain ⟨t, ht, hstates⟩ := ih hs
      exact ⟨t, by rw [writeEach, hb, writeAll, if_pos rfl]; exact ht, hstates⟩
    · obtain ⟨u, hu, hstate⟩ := h s b hs
      obtain ⟨t, ht, hstates⟩ := ih hstate
      exact ⟨t, by rw [writeEach, writeAll_whole hb hu]; exact ht, hstates⟩

/-! ## Any writes -/

/-- The writer `s` after one write after another, whatever came of each. -/
inductive Reaches (s : σ) : σ → Prop
  | start : Reaches s s
  | write {t u : σ} {b : Bytes} {r : Except Fault Nat} (h : Reaches s t)
      (hw : Writer.write t b = (r, u)) : Reaches s u

theorem Reaches.writeAll (h : Reaches s t) (b : Bytes) : Reaches s (writeAll t b).2 := by
  fun_induction Writer.writeAll t b with
  | case1 t => exact h
  | case2 t b hb u hw => exact h.write hw
  | case3 t b hb n u hw ih => exact ih (h.write hw)
  | case4 t b hb f u hw hf ih => exact ih (h.write hw)
  | case5 t b hb f u hw hf => exact h.write hw

theorem Reaches.writeEach (h : Reaches s t) (pieces : List Bytes) :
    Reaches s (writeEach t pieces).2 := by
  induction pieces generalizing t with
  | nil => exact h
  | cons b pieces ih =>
    have hb := h.writeAll b
    rw [Writer.writeEach]
    generalize Writer.writeAll t b = r at hb
    obtain ⟨r, u⟩ := r
    cases r with
    | ok _ => exact ih hb
    | error f => exact hb

/-! ## A writer that accepts a number of bytes and then fails -/

/-- In none of the states, which writes do not leave, more than `n` bytes have been accepted; and a
write accepts nothing, or fails other than by an interruption, only when `n` bytes have been. -/
structure Limited (taken : σ → Bytes) (states : σ → Prop) (n : Nat) : Prop where
  next : ∀ {s t : σ} {b : Bytes} {r : Except Fault Nat}, states s → write s b = (r, t) → states t
  length_le : ∀ {s : σ}, states s → (taken s).length ≤ n
  stopped : ∀ {s t : σ} {b : Bytes}, states s → b ≠ [] → write s b = (.ok 0, t) →
    (taken t).length = n
  failed : ∀ {s t : σ} {b : Bytes} {f : Fault}, states s → write s b = (.error f, t) →
    f.isInterruption = false → (taken t).length = n

variable {states : σ → Prop} {n : Nat}

theorem Limited.writeAll (hl : Limited taken states n) (hs : states s) (b : Bytes) :
    states (writeAll s b).2 ∧
      ((∃ f, (writeAll s b).1 = .error f) → (taken (writeAll s b).2).length = n) := by
  fun_induction Writer.writeAll s b with
  | case1 s => exact ⟨hs, nofun⟩
  | case2 s b hb t hw => exact ⟨hl.next hs hw, fun _ => hl.stopped hs hb hw⟩
  | case3 s b hb k t hw ih => exact ih (hl.next hs hw)
  | case4 s b hb f t hw hf ih => exact ih (hl.next hs hw)
  | case5 s b hb f t hw hf =>
    exact ⟨hl.next hs hw, fun _ => hl.failed hs hw (Bool.eq_false_iff.2 hf)⟩

theorem Limited.writeEach (hl : Limited taken states n) (hs : states s) (pieces : List Bytes) :
    states (writeEach s pieces).2 ∧
      ((∃ f, (writeEach s pieces).1 = .error f) → (taken (writeEach s pieces).2).length = n) := by
  induction pieces generalizing s with
  | nil => exact ⟨hs, nofun⟩
  | cons b pieces ih =>
    have hb := hl.writeAll hs b
    rw [Writer.writeEach]
    generalize Writer.writeAll s b = r at hb
    obtain ⟨r, t⟩ := r
    cases r with
    | ok u => exact ih hb.1
    | error f => exact hb

/-- A limited writer fails if and only if there are more bytes than it accepts, of which it has then
accepted the first ones. -/
theorem writeEach_limited (hk : Keeps taken) (hl : Limited taken states n) (hs : states s)
    (hempty : taken s = []) (pieces : List Bytes) :
    taken (writeEach s pieces).2 = pieces.flatten.take n ∧
      ((∃ f, (writeEach s pieces).1 = .error f) ↔ n < pieces.flatten.length) := by
  have h := writeEach_wrote hk s pieces
  obtain ⟨ht, hfull⟩ := hl.writeEach hs pieces
  generalize writeEach s pieces = r at h ht hfull
  generalize pieces.flatten = b at h
  cases h with
  | all h =>
    rw [hempty, List.nil_append] at h
    have hle : b.length ≤ n := h ▸ hl.length_le ht
    refine ⟨by rw [h, List.take_of_length_le hle], ?_⟩
    simpa using hle
  | @part p x t f hx h =>
    rw [hempty, List.nil_append] at h
    have hp : p.length = n := h ▸ hfull ⟨f, rfl⟩
    have hpos := List.length_pos_iff.2 hx
    refine ⟨by rw [h, ← hp, List.take_left], ?_⟩
    simp [hp, hpos]

end Writer

/-! ## Encodings -/

variable {σ : Type} [Writer σ] {taken : σ → Bytes} {states : σ → Prop}

/-- What is accepted of an encoding is a beginning of it; it is all of it and the encoding's own
result, or else a failure. -/
theorem Encoding.write_wrote {α : Type} (hk : Writer.Keeps taken) (e : Encoding α) (s : σ) :
    ∃ p x, p ++ x = e.bytes ∧ taken (e.write s).2 = taken s ++ p ∧
      ((x = [] ∧ (e.write s).1 = e.result) ∨ (x ≠ [] ∧ ∃ f, (e.write s).1 = .error (.io f))) := by
  have h := Writer.writeEach_wrote hk s e.pieces
  rw [write, bytes]
  generalize Writer.writeEach s e.pieces = r at h
  generalize e.pieces.flatten = b at h
  cases h with
  | all h => exact ⟨b, [], List.append_nil b, h, .inl ⟨rfl, rfl⟩⟩
  | part hx h => exact ⟨_, _, rfl, h, .inr ⟨hx, _, rfl⟩⟩

/-- A writing that succeeds has written all of an encoding that succeeds. -/
theorem Encoding.taken_of_write_ok {α : Type} {a : α} {e : Encoding α} {s t : σ}
    (hk : Writer.Keeps taken) (hempty : taken s = []) (h : e.write s = (.ok a, t)) :
    e.result = .ok a ∧ taken t = e.bytes := by
  obtain ⟨p, x, hpx, htaken, hend⟩ := e.write_wrote hk s
  rw [h] at htaken hend
  rcases hend with ⟨rfl, hresult⟩ | ⟨-, f, hf⟩
  · exact ⟨hresult.symm, by rw [htaken, hempty, List.nil_append, ← hpx, List.append_nil]⟩
  · cases hf

/-- An encoding is written to its end by a writer that accepts everything. -/
theorem Encoding.write_whole {α : Type} (hk : Writer.Keeps taken) (h : Writer.Whole states) {s : σ}
    (hs : states s) (e : Encoding α) :
    ∃ t, e.write s = (e.result, t) ∧ taken t = taken s ++ e.bytes ∧ states t := by
  obtain ⟨t, ht, hstates⟩ := Writer.writeEach_whole h hs e.pieces
  have hwrote := Writer.writeEach_wrote hk s e.pieces
  rw [bytes]
  rw [ht] at hwrote
  generalize e.pieces.flatten = b at hwrote ⊢
  cases hwrote with
  | all hall => exact ⟨t, by rw [write, ht], hall, hstates⟩

theorem Encoding.reaches_write {α : Type} (e : Encoding α) (s : σ) :
    Writer.Reaches s (e.write s).2 := by
  have h := Writer.Reaches.start.writeEach (s := s) e.pieces
  rw [write]
  generalize Writer.writeEach s e.pieces = r at h
  obtain ⟨r, t⟩ := r
  cases r <;> exact h

theorem Encoding.write_limited {α : Type} {n : Nat} (hk : Writer.Keeps taken)
    (hl : Writer.Limited taken states n) {s : σ} (hs : states s) (hempty : taken s = [])
    (e : Encoding α) : taken (e.write s).2 = e.bytes.take n ∧
      ∀ a, e.result = .ok a → ((∃ err, (e.write s).1 = .error err) ↔ n < e.bytes.length) := by
  obtain ⟨htaken, hfails⟩ := Writer.writeEach_limited hk hl hs hempty e.pieces
  rw [write, bytes]
  generalize Writer.writeEach s e.pieces = r at htaken hfails
  obtain ⟨r, t⟩ := r
  cases r with
  | ok u =>
    refine ⟨htaken, fun a ha => ?_⟩
    rw [← hfails, ha]
    simp
  | error f =>
    refine ⟨htaken, fun a ha => ?_⟩
    rw [← hfails]
    simp

end CollectionDelta
