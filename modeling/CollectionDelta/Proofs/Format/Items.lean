import CollectionDelta.Proofs.Format.Finish

/-!
The items of a file, and how many records are left while it is read.

* `Reader.HandsOut`: the records that `next` hands out when it is asked again and again, and what it
  ends with; `Reader.handsOut_items`: the items are these records, and the error if there is one.
* `Reader.firstItems`: the first items, however many are asked for; `firstItems_eq` says that there
  are no more after the last one.
* `Reader.decoded`: the number of records among answers; `remaining_askAll`: it and what is left make
  up what was left before, until an item is an error.
* `Reader.items_end_for_good`: all of this, for a reader that has been started.
-/

namespace CollectionDelta
namespace Reader

/-- The records that `next` hands out, and then no record, or an error. -/
inductive HandsOut (r : Reader) (xs : List Record) : Option FormatError → Reader → Prop
  | counted {r' last : Reader} (h : r.Yields xs r') (hnext : r'.next = (.ok none, last)) :
      HandsOut r xs none last
  | failed {r' last : Reader} {e : FormatError} (h : r.Yields xs r')
      (hnext : r'.next = (.error e, last)) : HandsOut r xs (some e) last

/-- The answers of the iterator to as many calls, and the reader after them. -/
def firstItems (r : Reader) : Nat → List (Option (Except FormatError Record)) × Reader
  | 0 => ([], r)
  | k + 1 => (r.item.1 :: (r.item.2.firstItems k).1, (r.item.2.firstItems k).2)

/-- How many of the answers are records. -/
def decoded (answers : List (Except FormatError (Option Record))) : Nat :=
  answers.countP fun
    | .ok (some _) => true
    | _ => false

variable {r r' last : Reader} {x : Record} {xs : List Record} {e : FormatError} {q : Request}

/-! ## Items -/

theorem HandsOut.cons {e? : Option FormatError} (hnext : r.next = (.ok (some x), r'))
    (h : r'.HandsOut xs e? last) : r.HandsOut (x :: xs) e? last := by
  cases h with
  | counted h hlast => exact .counted (.cons hnext h) hlast
  | failed h hlast => exact .failed (.cons hnext h) hlast

/-- The items are what `next` hands out until it stops, and the error with which it does. -/
theorem handsOut_items (r : Reader) : ∃ xs e? last, r.HandsOut xs e? last ∧
    r.items = (xs.map .ok ++ e?.toList.map .error, { last with remaining := 0 }) := by
  fun_induction items r with
  | case1 r r' hnext =>
    obtain ⟨hr, rfl⟩ := next_eq_none_iff.1 hnext
    refine ⟨[], none, r', .counted .nil hnext, ?_⟩
    rw [← hr]
    rfl
  | case2 r e r' hnext => exact ⟨[], some e, r', .failed .nil hnext, rfl⟩
  | case3 r x r' hnext more last' hmore ih =>
    obtain ⟨xs, e?, last, houts, hitems⟩ := ih
    rw [hmore] at hitems
    cases hitems
    exact ⟨x :: xs, e?, last, houts.cons hnext, rfl⟩

theorem HandsOut.length_le {e? : Option FormatError} (h : r.HandsOut xs e? last) :
    xs.length ≤ r.remaining ∧ (e? = none → xs.length = r.remaining) := by
  cases h with
  | counted h hnext =>
    have hlen := h.remaining_eq
    have hr := (next_eq_none_iff.1 hnext).1
    omega
  | failed h hnext =>
    have hlen := h.remaining_eq
    exact ⟨by omega, nofun⟩

theorem item_done (hr : r.remaining = 0) : r.item = (none, r) := by
  rw [item, next_eq_none_iff.2 ⟨hr, rfl⟩]

theorem firstItems_done (hr : r.remaining = 0) (k : Nat) :
    r.firstItems k = (List.replicate k none, r) := by
  induction k with
  | zero => rfl
  | succ k ih => rw [firstItems, item_done hr, ih, List.replicate_succ]

/-- After the last item there is none, however often the iterator is called, and the reader stays as
it is. -/
theorem firstItems_eq (r : Reader) (k : Nat) : r.firstItems (r.items.1.length + k) =
    (r.items.1.map some ++ List.replicate k none, r.items.2) := by
  fun_induction items r with
  | case1 r r' hnext =>
    obtain ⟨hr, rfl⟩ := next_eq_none_iff.1 hnext
    rw [List.length_nil, Nat.zero_add, firstItems_done hr]
    rfl
  | case2 r e r' hnext =>
    have hitem : r.item = (some (.error e), { r' with remaining := 0 }) := by rw [item, hnext]
    rw [List.length_singleton, Nat.add_comm, firstItems, hitem, firstItems_done rfl]
    rfl
  | case3 r x r' hnext more last hmore ih =>
    have hitem : r.item = (some (.ok x), r') := by rw [item, hnext]
    rw [hmore] at ih
    rw [List.length_cons, Nat.add_right_comm, firstItems, hitem, ih]
    rfl

/-! ## What is left -/

/-- What a request does to the number of records that are left: an error leaves it as it is, and sets
it to nothing if it is an item. -/
inductive Asked (r : Reader) : Request → Except FormatError (Option Record) × Reader → Prop
  | record {q : Request} {x : Record} {r' : Reader} (hr : r'.remaining + 1 = r.remaining) :
      Asked r q (.ok (some x), r')
  | done {q : Request} (hr : r.remaining = 0) : Asked r q (.ok none, r)
  | failed {e : FormatError} {r' : Reader} (hr : r'.remaining = r.remaining) :
      Asked r .next (.error e, r')
  | ended {e : FormatError} {r' : Reader} (hr : r'.remaining = 0) : Asked r .item (.error e, r')

theorem remaining_next_error (h : r.next = (.error e, r')) : r'.remaining = r.remaining := by
  unfold next at h
  split at h
  · cases h
  · split at h
    · cases h
    · cases h
      rfl

theorem asked (r : Reader) (q : Request) : Asked r q (r.ask q) := by
  cases hnext : r.next with
  | mk a r' =>
    cases a with
    | ok a =>
      rw [ask_of_next hnext]
      cases a with
      | none =>
        obtain ⟨hr, rfl⟩ := next_eq_none_iff.1 hnext
        exact .done hr
      | some x => exact .record (remaining_next hnext)
    | error e =>
      cases q with
      | next =>
        rw [ask, hnext]
        exact .failed (remaining_next_error hnext)
      | item =>
        rw [ask, item, hnext]
        exact .ended rfl

theorem askAll_done (hr : r.remaining = 0) (qs : List Request) :
    r.askAll qs = (List.replicate qs.length (.ok none), r) := by
  induction qs with
  | nil => rfl
  | cons q qs ih =>
    have hask : r.ask q = (.ok none, r) := ask_of_next (next_eq_none_iff.2 ⟨hr, rfl⟩)
    rw [askAll, hask, ih, List.length_cons, List.replicate_succ]

/-- One of the items was an error. -/
def Ended (qs : List Request) (answers : List (Except FormatError (Option Record))) : Prop :=
  ∃ e, (.item, .error e) ∈ qs.zip answers

theorem ended_cons {qs : List Request} {a : Except FormatError (Option Record)}
    {answers : List (Except FormatError (Option Record))} : Ended (q :: qs) (a :: answers) ↔
      (q = .item ∧ ∃ e, a = .error e) ∨ Ended qs answers := by
  simp only [Ended, List.zip_cons_cons, List.mem_cons, Prod.mk.injEq]
  constructor
  · rintro ⟨e, ⟨rfl, rfl⟩ | hmem⟩
    · exact .inl ⟨rfl, e, rfl⟩
    · exact .inr ⟨e, hmem⟩
  · rintro (⟨rfl, e, rfl⟩ | ⟨e, hmem⟩)
    · exact ⟨e, .inl ⟨rfl, rfl⟩⟩
    · exact ⟨e, .inr hmem⟩

/-- Records that were decoded and records that are left are as many as were left before, as long as
no item is an error; after one nothing is left. -/
theorem remaining_askAll (r : Reader) (qs : List Request) :
    decoded (r.askAll qs).1 ≤ r.remaining ∧
      (¬Ended qs (r.askAll qs).1 →
        (r.askAll qs).2.remaining + decoded (r.askAll qs).1 = r.remaining) ∧
      (Ended qs (r.askAll qs).1 → (r.askAll qs).2.remaining = 0) := by
  induction qs generalizing r with
  | nil => exact ⟨Nat.zero_le _, fun _ => rfl, nofun⟩
  | cons q qs ih =>
    have hq := r.asked q
    rw [askAll, ended_cons]
    generalize r.ask q = answer at hq
    obtain ⟨a, r'⟩ := answer
    obtain ⟨hle, hleft, hended⟩ := ih r'
    dsimp only
    cases hq with
    | @record _ x _ hr =>
      have hdecoded : decoded (.ok (some x) :: (r'.askAll qs).1) = decoded (r'.askAll qs).1 + 1 :=
        List.countP_cons_of_pos rfl
      rw [hdecoded]
      refine ⟨by omega, fun hno => ?_, ?_⟩
      · have heq := hleft fun h => hno (.inr h)
        omega
      · rintro (⟨-, _, h⟩ | h)
        · cases h
        · exact hended h
    | done hr =>
      refine ⟨hle, fun hno => hleft fun h => hno (.inr h), ?_⟩
      rintro (⟨-, _, h⟩ | h)
      · cases h
      · exact hended h
    | failed hr =>
      rw [hr] at hle hleft
      refine ⟨hle, fun hno => hleft fun h => hno (.inr h), ?_⟩
      rintro (⟨h, -⟩ | h)
      · cases h
      · exact hended h
    | @ended e _ hr =>
      refine ⟨Nat.le_trans hle (hr ▸ Nat.zero_le _), fun hno => absurd (.inl ⟨rfl, e, rfl⟩) hno,
        fun _ => ?_⟩
      rw [askAll_done hr]
      exact hr

/-- The items are the records that `next` hands out when it is asked again and again, up to the first
error or to the declared number of them, then that error if there is one, and then nothing, however
often the iterator is called: the stream is not touched any more. Whatever is asked for in whatever
order, what is left are the declared records less those that were decoded, and nothing after an item
that is an error; a `next` that fails leaves it as it was. -/
theorem items_end_for_good {o : ReadOptions} {s t : Stream} (h : start o s = (.ok r, t)) :
    (∃ xs e? last, r.HandsOut xs e? last ∧
      r.items = (xs.map .ok ++ e?.toList.map .error, { last with remaining := 0 }) ∧
      xs.length ≤ r.header.count ∧ (e? = none → xs.length = r.header.count)) ∧
    (∀ k, r.firstItems (r.items.1.length + k) =
      (r.items.1.map some ++ List.replicate k none, r.items.2)) ∧
    ∀ qs, let answers := (r.askAll qs).1
      let r' := (r.askAll qs).2
      decoded answers ≤ r.header.count ∧
      (¬Ended qs answers → r'.remaining + decoded answers = r.header.count) ∧
      (Ended qs answers → r'.remaining = 0 ∧
        ∀ qs', r'.askAll qs' = (List.replicate qs'.length (.ok none), r')) ∧
      ∀ e r'', r'.next = (.error e, r'') → r''.remaining = r'.remaining := by
  have hcount := remaining_start h
  refine ⟨?_, firstItems_eq r, fun qs => ?_⟩
  · obtain ⟨xs, e?, last, houts, hitems⟩ := handsOut_items r
    obtain ⟨hle, hall⟩ := houts.length_le
    exact ⟨xs, e?, last, houts, hitems, hcount ▸ hle, fun he => hcount ▸ hall he⟩
  · obtain ⟨hle, hleft, hended⟩ := remaining_askAll r qs
    rw [hcount] at hle hleft
    exact ⟨hle, hleft, fun he => ⟨hended he, askAll_done (hended he)⟩,
      fun e r'' => remaining_next_error⟩

/-- Three records are declared, and two are there. -/
theorem items_end_for_good_cut :
    let s := Stream.ofBytes [0x52, 0x53, 0x44, 0x46, 0x01, 0x00, 0x03, 0x00, 0x01, 0x61, 0x00, 0x01,
      0x62]
    let items : List (Except FormatError Record) :=
      [.ok (.added "a"), .ok (.added "b"), .error (.io .shortRead)]
    ∃ r t, start {} s = (.ok r, t) ∧ (r.askAll [.next, .item, .next]).2.remaining = 1 ∧
      (r.askAll [.next, .item, .item]).2.remaining = 0 ∧
      ∃ last, ∀ k, r.firstItems (3 + k) = (items.map some ++ List.replicate k none, last) := by
  intro s items
  let answers : List (Except FormatError (Option Record)) :=
    [.ok (some (.added "a")), .ok (some (.added "b")), .error (.io .shortRead)]
  have hcount : (start {} s).1.map (fun r => r.header.count) = .ok 3 := by decide +kernel
  have hitems : (start {} s).1.map (fun r => r.items.1) = .ok items := by decide +kernel
  have hnext : (start {} s).1.map (fun r => (r.askAll [.next, .item, .next]).1) = .ok answers := by
    decide +kernel
  have hitem : (start {} s).1.map (fun r => (r.askAll [.next, .item, .item]).1) = .ok answers := by
    decide +kernel
  cases hstart : start {} s with
  | mk answer t =>
    rw [hstart] at hcount hitems hnext hitem
    cases answer with
    | error e => cases hcount
    | ok r =>
      simp only [Except.map, Except.ok.injEq] at hcount hitems hnext hitem
      obtain ⟨-, hfirst, hask⟩ := items_end_for_good hstart
      obtain ⟨-, hleft, -⟩ := hask [.next, .item, .next]
      obtain ⟨-, -, hended, -⟩ := hask [.next, .item, .item]
      rw [hnext, hcount] at hleft
      rw [hitem] at hended
      refine ⟨r, t, rfl, ?_, ?_, r.items.2, fun k => ?_⟩
      · have hno : ¬Ended [.next, .item, .next] answers := by
          simp [answers, Ended]
        exact Nat.add_right_cancel (hleft hno)
      · exact (hended (by simp [answers, Ended])).1
      · have hk := hfirst k
        rwa [hitems] at hk

end Reader
end CollectionDelta
