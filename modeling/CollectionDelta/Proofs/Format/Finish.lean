import CollectionDelta.Proofs.Format.Truncation

/-!
What the end of a reading vouches for.

* `Reader.Request`, `Reader.askAll`: a reader asked for records, or for items, in any order.
* `Reader.Whole`, `Decodable`: all records that are left are read, and the data end after them.
* `Reader.finish_eq_ok_iff`: a reader can be finished if and only if what is left is whole.
* `Reader.finish_after_requests`: a reader that never answered with an error can be finished if and
  only if a fresh one reads the whole file. `Reader.finish_after_error` is a file that shows why the
  error matters: the items end with it, and what they leave out is not read any more.
-/

namespace CollectionDelta
namespace Reader

/-- The two ways to ask a reader for what comes next. -/
inductive Request
  | next
  | item
  deriving DecidableEq, Repr

/-- The answer to a request, in the words of `next`. -/
def ask (r : Reader) : Request → Except FormatError (Option Record) × Reader
  | .next => r.next
  | .item =>
    match r.item with
    | (none, r') => (.ok none, r')
    | (some (.ok x), r') => (.ok (some x), r')
    | (some (.error e), r') => (.error e, r')

/-- The answers to requests made one after another, whatever came before. -/
def askAll (r : Reader) : List Request → List (Except FormatError (Option Record)) × Reader
  | [] => ([], r)
  | q :: qs => ((r.ask q).1 :: ((r.ask q).2.askAll qs).1, ((r.ask q).2.askAll qs).2)

/-- All records that are left can be read, and the data end right after them. -/
def Whole (r : Reader) : Prop :=
  ∃ records r' t, r.Yields records r' ∧ records.length = r.remaining ∧
    expectEnd r'.stream = (.ok (), t)

variable {r r' : Reader} {x : Record} {xs : List Record} {q : Request}

/-! ## One request -/

theorem ask_of_next {a : Option Record} (h : r.next = (.ok a, r')) : r.ask q = (.ok a, r') := by
  cases q with
  | next => exact h
  | item => cases a <;> simp [ask, item, h]

theorem ask_of_next_error {e : FormatError} (h : r.next = (.error e, r')) :
    (r.ask q).1 = .error e := by
  cases q with
  | next => rw [ask, h]
  | item => simp [ask, item, h]

theorem remaining_next (h : r.next = (.ok (some x), r')) : r'.remaining + 1 = r.remaining := by
  unfold next at h
  split at h
  · cases h
  · next hr =>
    split at h
    · cases h
      exact Nat.succ_pred_eq_of_ne_zero hr
    · cases h

theorem Yields.remaining_eq (h : r.Yields xs r') : r'.remaining + xs.length = r.remaining := by
  induction h with
  | nil => rfl
  | cons hnext _ ih =>
    have hr := remaining_next hnext
    rw [List.length_cons]
    omega

/-! ## What is left -/

/-- A record that is handed out takes nothing from what is said of the rest. -/
theorem whole_next (h : r.next = (.ok (some x), r')) : r.Whole ↔ r'.Whole := by
  have hr := remaining_next h
  constructor
  · rintro ⟨records, last, t, hy, hlen, hend⟩
    cases hy with
    | nil =>
      rw [List.length_nil] at hlen
      omega
    | cons hnext hy =>
      rw [h] at hnext
      cases hnext
      rw [List.length_cons] at hlen
      exact ⟨_, last, t, hy, by omega, hend⟩
  · rintro ⟨records, last, t, hy, hlen, hend⟩
    exact ⟨x :: records, last, t, .cons h hy, by rw [List.length_cons]; omega, hend⟩

theorem Whole.next_ne_error (h : r.Whole) (e : FormatError) (r' : Reader) :
    r.next ≠ (.error e, r') := by
  intro hnext
  obtain ⟨records, last, t, hy, hlen, -⟩ := h
  cases hy with
  | nil =>
    have hnone : r.next = (.ok none, r) := next_eq_none_iff.2 ⟨hlen.symm, rfl⟩
    rw [hnext] at hnone
    cases hnone
  | cons hcons _ =>
    rw [hnext] at hcons
    cases hcons

theorem skipAll_eq_ok_iff :
    r.skipAll = (.ok (), r') ↔ ∃ xs, r.Yields xs r' ∧ r'.remaining = 0 := by
  constructor
  · intro h
    fun_induction skipAll r with
    | case1 r r₁ hnext =>
      cases h
      obtain ⟨hr, rfl⟩ := next_eq_none_iff.1 hnext
      exact ⟨[], .nil, hr⟩
    | case2 => cases h
    | case3 r x r₁ hnext ih =>
      obtain ⟨xs, hy, hr⟩ := ih h
      exact ⟨x :: xs, .cons hnext hy, hr⟩
  · rintro ⟨xs, hy, hr⟩
    induction hy with
    | nil =>
      rw [skipAll]
      have hnext := next_eq_none_iff.2 ⟨hr, rfl⟩
      split <;> simp_all
    | cons hnext _ ih =>
      rw [skipAll]
      split <;> simp_all

/-- A reader can be finished if and only if what is left is whole. -/
theorem finish_eq_ok_iff : (∃ t, r.finish = (.ok (), t)) ↔ r.Whole := by
  constructor
  · rintro ⟨t, h⟩
    rw [finish] at h
    split at h
    · cases h
    · next last hskip =>
      obtain ⟨xs, hy, hr⟩ := skipAll_eq_ok_iff.1 hskip
      have hlen := hy.remaining_eq
      exact ⟨xs, last, t, hy, by omega, h⟩
  · rintro ⟨records, last, t, hy, hlen, hend⟩
    have hr := hy.remaining_eq
    have hskip : r.skipAll = (.ok (), last) := skipAll_eq_ok_iff.2 ⟨records, hy, by omega⟩
    exact ⟨t, by rw [finish, hskip]; exact hend⟩

/-! ## Any requests -/

/-- One request that is not answered with an error leaves the rest as whole as it was. -/
theorem whole_ask (h : ∀ e, (r.ask q).1 ≠ .error e) : (r.ask q).2.Whole ↔ r.Whole := by
  cases hnext : r.next with
  | mk a r' =>
    cases a with
    | error e => exact absurd (ask_of_next_error hnext) (h e)
    | ok a =>
      rw [ask_of_next hnext]
      cases a with
      | none => rw [(next_eq_none_iff.1 hnext).2]
      | some x => exact (whole_next hnext).symm

theorem whole_askAll (qs : List Request) (h : ∀ e, .error e ∉ (r.askAll qs).1) :
    (r.askAll qs).2.Whole ↔ r.Whole := by
  induction qs generalizing r with
  | nil => rfl
  | cons q qs ih =>
    have hfirst : ∀ e, (r.ask q).1 ≠ .error e := fun e he => h e (by simp [askAll, he])
    have hrest : ∀ e, .error e ∉ ((r.ask q).2.askAll qs).1 :=
      fun e he => h e (List.mem_cons_of_mem _ he)
    exact (ih hrest).trans (whole_ask hfirst)

theorem Whole.ask_ne_error (h : r.Whole) (q : Request) (e : FormatError) :
    (r.ask q).1 ≠ .error e := by
  intro he
  cases hnext : r.next with
  | mk a r' =>
    cases a with
    | error e' => exact h.next_ne_error e' r' hnext
    | ok a =>
      rw [ask_of_next hnext] at he
      cases he

theorem Whole.askAll_no_error (h : r.Whole) (qs : List Request) (e : FormatError) :
    .error e ∉ (r.askAll qs).1 := by
  induction qs generalizing r with
  | nil => simp [askAll]
  | cons q qs ih =>
    have hfirst := h.ask_ne_error q
    have hrest := ih ((whole_ask hfirst).2 h)
    simp only [askAll, List.mem_cons, not_or]
    exact ⟨fun he => hfirst e he.symm, hrest⟩

end Reader

/-! ## Fresh readers -/

/-- A fresh reader reads as many records as the head declares, and finds the end of the data right
after the last one. -/
def Decodable (o : ReadOptions) (s : Stream) : Prop :=
  ∃ (r r' : Reader) (t t' : Stream) (records : List Record), Reader.start o s = (.ok r, t) ∧
    r.Yields records r' ∧ records.length = r.header.count ∧
    Reader.expectEnd r'.stream = (.ok (), t')

variable {o : ReadOptions} {s s' t : Stream} {n n' : Nat} {b : Bytes} {e : Stream.Ending}
  {r : Reader}

theorem Reader.remaining_start (h : Reader.start o s = (.ok r, t)) :
    r.remaining = r.header.count := by
  unfold Reader.start at h
  split at h
  · cases h
  · split at h
    · cases h
    · cases h
      rfl

theorem decodable_iff_whole (h : Reader.start o s = (.ok r, t)) : Decodable o s ↔ r.Whole := by
  have hr := Reader.remaining_start h
  constructor
  · rintro ⟨r₁, last, t₁, t', records, hstart, hy, hlen, hend⟩
    obtain ⟨⟨rfl⟩, -⟩ := Prod.mk.inj (hstart.symm.trans h)
    exact ⟨records, last, t', hy, hlen.trans hr.symm, hend⟩
  · rintro ⟨records, last, t', hy, hlen, hend⟩
    exact ⟨r, last, t, t', records, h, hy, hlen.trans hr, hend⟩

/-- Whether a file can be decoded depends on its bytes, not on how they are handed over. -/
theorem Decodable.of_holds (h : Decodable o s) (hs : s.Holds n b e) :
    e = .ended ∧ ∀ s' n', s'.Holds n' b .ended → Decodable o s' := by
  obtain ⟨r, last, t, t', records, hstart, hy, hlen, hend⟩ := h
  obtain ⟨head, rest, rfl, hhead, hc, ht, hcount, hd⟩ := Reader.start_sound hs hstart
  obtain ⟨body, rest', rfl, hbody, -, hlast⟩ := hy.written ht
  obtain ⟨rfl, rfl⟩ := Reader.expectEnd_sound hlast hend
  refine ⟨rfl, fun s' n' hs' => ?_⟩
  obtain ⟨u, hu, hstart'⟩ := Reader.start_written hhead hc hs'
  rw [← hd] at hstart'
  obtain ⟨last', hy', -, hlast'⟩ := Reader.Yields.of_written
    (r := ⟨r.header, r.decoder, r.header.count, u⟩) hbody (Nat.le_of_eq hlen) hu
  obtain ⟨u', hend'⟩ := Reader.expectEnd_ended hlast'
  exact ⟨_, last', u, u', records, hstart', hy', hlen, hend'⟩

/-- A file that is read has as many records as its head declares and nothing after them. -/
theorem decodable_of_readRecords {records : List Record}
    (h : (readRecords o (Stream.ofBytes b)).1 = .ok records) : Decodable o (Stream.ofBytes b) := by
  have hs := Stream.holds_ofBytes b
  obtain ⟨header, head, body, backend, rfl, hhead, hc, hcount, hbody, -⟩ :=
    (readRecords_eq_ok_iff o b records).1 h
  obtain ⟨t, ht, hstart⟩ := Reader.start_written hhead hc hs
  rw [← List.append_nil body] at ht
  obtain ⟨last, hy, -, hlast⟩ := Reader.Yields.of_written
    (r := ⟨header, ⟨backend, header.hasChecksum, o.verify⟩, header.count, t⟩) hbody
    (Nat.le_of_eq hcount) ht
  obtain ⟨t', hend⟩ := Reader.expectEnd_ended hlast
  exact ⟨_, last, t, t', records, hstart, hy, hcount, hend⟩

namespace Reader

/-- A reader that is asked for records and items in any order, and never answers with an error, can
be finished if and only if a fresh reader decodes the whole file; and of such a file no reader
answers with an error. Then the data end after the last record, and a reader of the same bytes in
other pieces decodes them as well. -/
theorem finish_after_requests (h : start o s = (.ok r, t)) (requests : List Request) :
    (((∀ e, .error e ∉ (r.askAll requests).1) ∧
      ∃ t', (r.askAll requests).2.finish = (.ok (), t')) ↔ Decodable o s) ∧
      ∀ n b e, s.Holds n b e → Decodable o s →
        e = .ended ∧ ∀ s' n', s'.Holds n' b .ended → Decodable o s' := by
  refine ⟨?_, fun n b e hs hd => hd.of_holds hs⟩
  rw [decodable_iff_whole h, finish_eq_ok_iff]
  constructor
  · rintro ⟨herror, hwhole⟩
    exact (whole_askAll requests herror).1 hwhole
  · intro hwhole
    have herror := hwhole.askAll_no_error requests
    exact ⟨herror, (whole_askAll requests herror).2 hwhole⟩

/-- Two records in three pieces with an interruption between them, asked for in both ways and once
too often. -/
theorem finish_after_item :
    let b : Bytes := [0x52, 0x53, 0x44, 0x46, 0x01, 0x00, 0x02, 0x00, 0x01, 0x61, 0x01, 0x01, 0x62,
      0x00, 0x01, 0x01, 0x07]
    let s : Stream := { script := [.data (b.take 3) none, .fail ⟨.interrupted, "again"⟩,
      .data (b.drop 3) (some 2)] }
    ∃ r t, start {} s = (.ok r, t) ∧ s.Holds 0 b .ended ∧
      (∀ e, .error e ∉ (r.askAll [.item, .next, .item]).1) ∧
        (∃ t', (r.askAll [.item, .next, .item]).2.finish = (.ok (), t')) ∧
        Decodable {} (Stream.ofBytes b) := by
  intro b s
  have hread : (readRecords {} (Stream.ofBytes b)).1 = .ok [.added "a", .removed "b" [7]] := by
    decide +kernel
  have hs : s.Holds 0 b .ended :=
    ⟨.data (by simp) (.interrupted rfl (.data (by simp) .ended)), rfl⟩
  have hwhole := decodable_of_readRecords hread
  obtain ⟨-, hpieces⟩ := hwhole.of_holds (Stream.holds_ofBytes b)
  obtain ⟨r, -, t, -, -, hstart, -⟩ := hpieces s 0 hs
  obtain ⟨hiff, hbytes⟩ := finish_after_requests hstart [.item, .next, .item]
  obtain ⟨herror, hfinish⟩ := hiff.2 (hpieces s 0 hs)
  obtain ⟨-, hany⟩ := hbytes 0 b .ended hs (hpieces s 0 hs)
  exact ⟨r, t, hstart, hs, herror, hfinish, hany _ 0 (Stream.holds_ofBytes b)⟩

/-- A head that declares a record, and no record: the item is an error, and the finish is not. -/
theorem finish_after_error :
    let s := Stream.ofBytes [0x52, 0x53, 0x44, 0x46, 0x01, 0x00, 0x01]
    ∃ r t, start {} s = (.ok r, t) ∧ (∃ t', (r.askAll [.item]).2.finish = (.ok (), t')) ∧
      ¬ Decodable {} s := by
  intro s
  have hrun : (start {} s).1.map (fun r => ((r.askAll [.item]).1, (r.askAll [.item]).2.finish.1)) =
      .ok ([.error (.io .shortRead)], .ok ()) := by decide +kernel
  cases hstart : start {} s with
  | mk answer t =>
    rw [hstart] at hrun
    cases answer with
    | error e => cases hrun
    | ok r =>
      obtain ⟨hanswers, hfinish⟩ := Prod.mk.inj (Except.ok.inj hrun)
      refine ⟨r, t, rfl, ⟨_, Prod.ext hfinish rfl⟩, fun hd => ?_⟩
      have herror := ((decodable_iff_whole hstart).1 hd).askAll_no_error [.item] (.io .shortRead)
      rw [hanswers] at herror
      exact herror List.mem_cons_self

end Reader
end CollectionDelta
