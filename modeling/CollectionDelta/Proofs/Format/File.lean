import CollectionDelta.Proofs.Format.Grammar
import CollectionDelta.Proofs.Names

/-!
Whole files.

* `CodecFor`: the codec that a head names, for a reader with its own codec or without.
* `FileWritten`: a head, as many records as it declares, no name twice, and nothing after them.
* `Reader.Yields`: the records that a reader hands out one after another.
* `readRecords_eq_ok_iff`: a file is read if and only if it has that form, as the records that it is
  a form of.
-/

namespace CollectionDelta

/-- The codec of a head's number: the reader's own if it has that number, else a built-in one. -/
inductive CodecFor (o : ReadOptions) : Option UInt8 → Option Backend → Prop
  | none : CodecFor o none none
  | given {backend : Backend} (h : o.backend = some backend) :
      CodecFor o (some backend.id) (some backend)
  | lzma (h : ∀ backend, o.backend = some backend → backend.id ≠ 2) :
      CodecFor o (some 2) (some Codec.lzma)
  | zlib (h : ∀ backend, o.backend = some backend → backend.id ≠ 3) :
      CodecFor o (some 3) (some (Codec.zlib Codec.defaultLevel))

def FileWritten (o : ReadOptions) : Form (List Record) := fun records w =>
  ∃ (header : Header) (head body : Bytes) (backend : Option Backend), w = head ++ body ∧
    header.Written head ∧ CodecFor o header.codec backend ∧ records.length = header.count ∧
    RecordDecoder.RecordsWritten ⟨backend, header.hasChecksum, o.verify⟩ records body ∧
    (records.map Record.name).Nodup

namespace Reader

private theorem builtIn_eq_ok {id : UInt8} {backend : Option Backend} :
    backendFor.builtIn id = .ok backend ↔ (id = 2 ∧ backend = some Codec.lzma) ∨
      (id = 3 ∧ backend = some (Codec.zlib Codec.defaultLevel)) := by
  unfold backendFor.builtIn Codec.builtIn? Codec.lzmaId Codec.zlibId
  by_cases h2 : id = 2
  · subst h2
    simp [eq_comm]
  · by_cases h3 : id = 3
    · subst h3
      simp [eq_comm]
    · simp [h2, h3]

private theorem backendFor_of_ne {o : ReadOptions} {id : UInt8}
    (h : ∀ backend, o.backend = some backend → backend.id ≠ id) :
    backendFor o (some id) = backendFor.builtIn id := by
  cases ho : o.backend with
  | none => simp [backendFor, ho]
  | some backend => simp [backendFor, ho, h backend ho]

theorem backendFor_eq_ok {o : ReadOptions} {codec : Option UInt8} {backend : Option Backend} :
    backendFor o codec = .ok backend ↔ CodecFor o codec backend := by
  constructor
  · intro h
    cases codec with
    | none =>
      cases h
      exact .none
    | some id =>
      by_cases hid : ∃ own, o.backend = some own ∧ own.id = id
      · obtain ⟨own, hown, rfl⟩ := hid
        simp only [backendFor, hown, if_true] at h
        cases h
        exact .given hown
      · have hne : ∀ own, o.backend = some own → own.id ≠ id :=
          fun own hown heq => hid ⟨own, hown, heq⟩
        rw [backendFor_of_ne hne] at h
        rcases builtIn_eq_ok.1 h with ⟨rfl, rfl⟩ | ⟨rfl, rfl⟩
        · exact .lzma hne
        · exact .zlib hne
  · intro h
    cases h with
    | none => rfl
    | given h => simp [backendFor, h]
    | lzma h => rw [backendFor_of_ne h, builtIn_eq_ok.2 (.inl ⟨rfl, rfl⟩)]
    | zlib h => rw [backendFor_of_ne h, builtIn_eq_ok.2 (.inr ⟨rfl, rfl⟩)]

/-! ## Record by record -/

/-- The reader hands out the records `xs`, one after another, and is then `r'`. -/
inductive Yields : Reader → List Record → Reader → Prop
  | nil {r : Reader} : Yields r [] r
  | cons {r r' r'' : Reader} {x : Record} {xs : List Record} (h : r.next = (.ok (some x), r'))
      (hs : Yields r' xs r'') : Yields r (x :: xs) r''

variable {r r' : Reader} {x : Record} {xs : List Record} {n : Nat} {b w rest : Bytes}
  {e : Stream.Ending}

theorem next_written (hr : r.remaining ≠ 0) (hw : r.decoder.RecordWritten x w)
    (hs : r.stream.Holds n (w ++ rest) e) : ∃ t : Stream, t.Holds (n + w.length) rest e ∧
      r.next = (.ok (some x), { r with remaining := r.remaining - 1, stream := t }) := by
  obtain ⟨t, hd, ht⟩ := (RecordDecoder.accepts_record r.decoder).complete hw hs
  exact ⟨t, ht, by rw [next, if_neg hr, hd]⟩

theorem next_sound (hs : r.stream.Holds n b e) (h : r.next = (.ok (some x), r')) :
    ∃ w rest, b = w ++ rest ∧ r.decoder.RecordWritten x w ∧ r'.stream.Holds (n + w.length) rest e ∧
      r'.decoder = r.decoder ∧ r'.remaining + 1 = r.remaining := by
  unfold next at h
  split at h
  · cases h
  · next hr =>
    split at h
    · next record t hd =>
      cases h
      obtain ⟨w, rest, rfl, hw, ht⟩ := (RecordDecoder.accepts_record r.decoder).rest hs hd
      exact ⟨w, rest, rfl, hw, ht, rfl, Nat.succ_pred_eq_of_ne_zero hr⟩
    · cases h

theorem next_eq_none_iff : r.next = (.ok none, r') ↔ r.remaining = 0 ∧ r' = r := by
  unfold next
  by_cases hr : r.remaining = 0
  · simp [hr, eq_comm]
  · rw [if_neg hr]
    split <;> simp [hr]

theorem Yields.of_written (hxs : r.decoder.RecordsWritten xs w) (hr : xs.length ≤ r.remaining)
    (hs : r.stream.Holds n (w ++ rest) e) : ∃ r', r.Yields xs r' ∧
      r'.remaining + xs.length = r.remaining ∧ r'.stream.Holds (n + w.length) rest e := by
  generalize hd : r.decoder = d at hxs
  induction hxs generalizing r n with
  | nil => exact ⟨r, .nil, rfl, hs⟩
  | @cons x xs w ws hx _ ih =>
    rw [List.length_cons] at hr ⊢
    rw [List.append_assoc] at hs
    obtain ⟨t, ht, hnext⟩ := next_written (by omega) (hd ▸ hx) hs
    let r₁ : Reader := { r with remaining := r.remaining - 1, stream := t }
    have hle : xs.length ≤ r₁.remaining := Nat.le_sub_one_of_lt hr
    obtain ⟨r', hy, hr', ht'⟩ := ih hle ht hd
    refine ⟨r', .cons hnext hy, ?_, ?_⟩
    · have hr₁ : r₁.remaining = r.remaining - 1 := rfl
      omega
    · rwa [List.length_append, ← Nat.add_assoc]

theorem Yields.written (h : r.Yields xs r') (hs : r.stream.Holds n b e) :
    ∃ w rest, b = w ++ rest ∧ r.decoder.RecordsWritten xs w ∧
      r'.remaining + xs.length = r.remaining ∧ r'.stream.Holds (n + w.length) rest e := by
  induction h generalizing n b with
  | nil => exact ⟨[], b, rfl, .nil, rfl, hs⟩
  | cons h _ ih =>
    obtain ⟨w, rest, rfl, hw, ht, hd, hr⟩ := next_sound hs h
    obtain ⟨ws, rest', rfl, hws, hr', ht'⟩ := ih ht
    refine ⟨w ++ ws, rest', (List.append_assoc ..).symm, .cons hw (hd ▸ hws), ?_, ?_⟩
    · rw [List.length_cons]
      omega
    · rwa [List.length_append, ← Nat.add_assoc]

theorem Yields.of_append {ys : List Record} (h : r.Yields (xs ++ ys) r') :
    ∃ r₁, r.Yields xs r₁ ∧ r₁.Yields ys r' := by
  induction xs generalizing r with
  | nil => exact ⟨r, .nil, h⟩
  | cons x xs ih =>
    cases h with
    | cons hnext h =>
      obtain ⟨r₁, hxs, hys⟩ := ih h
      exact ⟨r₁, .cons hnext hxs, hys⟩

/-- A reader that hands out its last record has no other item. -/
theorem Yields.items (h : r.Yields xs r') (hr : r'.remaining = 0) :
    r.items = (xs.map .ok, r') := by
  induction h with
  | @nil r =>
    have hnext : r.next = (.ok none, r) := next_eq_none_iff.2 ⟨hr, rfl⟩
    rw [Reader.items]
    split
    · next h => rw [hnext] at h; cases h; rfl
    · next h => rw [hnext] at h; cases h
    · next h => rw [hnext] at h; cases h
  | cons hnext _ ih =>
    rw [Reader.items]
    split
    · next h => rw [hnext] at h; cases h
    · next h => rw [hnext] at h; cases h
    · next h =>
      rw [hnext] at h
      cases h
      rw [ih hr]
      rfl

/-! ## The whole rest of a file -/

theorem distinctRecords_next {seen : List String} (h : r.next = (.ok (some x), r')) :
    r.distinctRecords seen =
      if x.name ∈ seen then (.error (.invalid (.duplicateRecord x.name)), r')
      else match r'.distinctRecords (x.name :: seen) with
        | (.ok more, r'') => (.ok (x :: more), r'')
        | (.error err, r'') => (.error err, r'') := by
  rw [distinctRecords]
  split
  · next h' => simp [h] at h'
  · next h' => simp [h] at h'
  · next h' =>
    rw [h] at h'
    cases h'
    rfl

theorem distinctRecords_sound {seen : List String} (h : r.distinctRecords seen = (.ok xs, r')) :
    r.Yields xs r' ∧ r'.remaining = 0 ∧ Fresh seen xs := by
  fun_induction distinctRecords seen r generalizing xs with
  | case1 seen r r₁ hnext =>
    cases h
    obtain ⟨hr, rfl⟩ := next_eq_none_iff.1 hnext
    exact ⟨.nil, hr, by simp [Fresh]⟩
  | case2 => cases h
  | case3 => cases h
  | case4 seen r x r₁ hnext hx more r₂ hmore ih =>
    cases h
    obtain ⟨hy, hr, hfresh⟩ := ih hmore
    exact ⟨.cons hnext hy, hr, fresh_cons.2 ⟨hx, hfresh⟩⟩
  | case5 => cases h

theorem distinctRecords_done (seen : List String) (hr : r.remaining = 0) :
    r.distinctRecords seen = (.ok [], r) := by
  have hnext : r.next = (.ok none, r) := next_eq_none_iff.2 ⟨hr, rfl⟩
  rw [distinctRecords]
  split
  · next h => rw [hnext] at h; cases h; rfl
  · next h => rw [hnext] at h; cases h
  · next h => rw [hnext] at h; cases h

theorem distinctRecords_complete {seen : List String} (h : r.Yields xs r')
    (hr : r'.remaining = 0) (hfresh : Fresh seen xs) : r.distinctRecords seen = (.ok xs, r') := by
  induction h generalizing seen with
  | nil => exact distinctRecords_done seen hr
  | cons hnext _ ih =>
    obtain ⟨hx, hfresh⟩ := fresh_cons.1 hfresh
    rw [distinctRecords_next hnext, if_neg hx, ih hr hfresh]

/-- A record whose name came before ends the reading. -/
theorem distinctRecords_repeated {seen : List String} (h : r.Yields (xs ++ [x]) r')
    (hfresh : Fresh seen xs) (hx : x.name ∈ seen ∨ x.name ∈ xs.map Record.name) :
    r.distinctRecords seen = (.error (.invalid (.duplicateRecord x.name)), r') := by
  induction xs generalizing r seen with
  | nil =>
    cases h with
    | cons hnext hnil =>
      cases hnil
      have hmem : x.name ∈ seen := by simpa using hx
      rw [distinctRecords_next hnext, if_pos hmem]
  | cons y xs ih =>
    cases h with
    | cons hnext hy =>
      obtain ⟨hfirst, hfresh⟩ := fresh_cons.1 hfresh
      have hx' : x.name ∈ y.name :: seen ∨ x.name ∈ xs.map Record.name := by
        rw [List.map_cons, List.mem_cons] at hx
        rw [List.mem_cons]
        rcases hx with h | h | h
        · exact .inl (.inr h)
        · exact .inl (.inl h)
        · exact .inr h
      rw [distinctRecords_next hnext, if_neg hfirst, ih hy hfresh hx']

/-! ## The head and the end -/

theorem start_written {o : ReadOptions} {h : Header} {backend : Option Backend} {s : Stream}
    (hw : h.Written w) (hc : CodecFor o h.codec backend) (hs : s.Holds n (w ++ rest) e) :
    ∃ t : Stream, t.Holds (n + w.length) rest e ∧
      start o s = (.ok ⟨h, ⟨backend, h.hasChecksum, o.verify⟩, h.count, t⟩, t) := by
  obtain ⟨t, hd, ht⟩ := Header.accepts_decode.complete hw hs
  exact ⟨t, ht, by simp [start, hd, backendFor_eq_ok.2 hc]⟩

theorem start_sound {o : ReadOptions} {s t : Stream} (hs : s.Holds n b e)
    (h : start o s = (.ok r, t)) : ∃ w rest, b = w ++ rest ∧ r.header.Written w ∧
      CodecFor o r.header.codec r.decoder.backend ∧ r.stream.Holds (n + w.length) rest e ∧
      r.remaining = r.header.count ∧
      r.decoder = ⟨r.decoder.backend, r.header.hasChecksum, o.verify⟩ := by
  unfold start at h
  split at h
  · cases h
  · next head t' hd =>
    split at h
    · cases h
    · next backend hc =>
      cases h
      obtain ⟨w, rest, rfl, hw, ht⟩ := Header.accepts_decode.rest hs hd
      exact ⟨w, rest, rfl, hw, backendFor_eq_ok.1 hc, ht, rfl, rfl⟩

theorem finish_done (hr : r.remaining = 0) : r.finish = expectEnd r.stream := by
  have hnext : r.next = (.ok none, r) := next_eq_none_iff.2 ⟨hr, rfl⟩
  have hskip : r.skipAll = (.ok (), r) := by
    rw [skipAll]
    split
    · next h => rw [hnext] at h; cases h; rfl
    · next h => rw [hnext] at h; cases h
    · next h => rw [hnext] at h; cases h
  rw [finish, hskip]

theorem expectEnd_ended {s : Stream} (hs : s.Holds n [] .ended) :
    ∃ t, expectEnd s = (.ok (), t) := by
  obtain ⟨t, hg, -⟩ := Stream.gather_short (by simp : ([] : Bytes).length < 1) hs
  exact ⟨t, by rw [expectEnd, hg]⟩

theorem expectEnd_sound {s t : Stream} (hs : s.Holds n b e) (h : expectEnd s = (.ok (), t)) :
    b = [] ∧ e = .ended := by
  cases b with
  | nil =>
    cases e with
    | ended => exact ⟨rfl, rfl⟩
    | broken f =>
      obtain ⟨t', hg, -⟩ := Stream.gather_broken (by simp : ([] : Bytes).length < 1) hs
      simp [expectEnd, hg] at h
  | cons c b =>
    obtain ⟨t', hg, -⟩ := Stream.gather_holds (by simp : 1 ≤ (c :: b).length) hs
    simp [expectEnd, hg] at h

end Reader

/-! ## Files as a whole -/

theorem readRecords_sound {o : ReadOptions} {s t : Stream} {n : Nat} {b : Bytes}
    {e : Stream.Ending} {records : List Record} (hs : s.Holds n b e)
    (h : readRecords o s = (.ok records, t)) : FileWritten o records b ∧ e = .ended := by
  unfold readRecords at h
  split at h
  · cases h
  · next r _ hstart =>
    split at h
    · cases h
    · next records' r' hrecords =>
      split at h
      · cases h
      · next t' hend =>
        cases h
        obtain ⟨head, rest, rfl, hhead, hc, ht, hcount, hd⟩ := Reader.start_sound hs hstart
        obtain ⟨hy, hdone, hnd, -⟩ := Reader.distinctRecords_sound hrecords
        obtain ⟨body, rest', rfl, hbody, hlen, ht'⟩ := hy.written ht
        rw [Reader.finish_done hdone] at hend
        obtain ⟨rfl, rfl⟩ := Reader.expectEnd_sound ht' hend
        refine ⟨⟨r.header, head, body, r.decoder.backend, by rw [List.append_nil], hhead, hc, ?_,
          hd ▸ hbody, hnd⟩, rfl⟩
        omega

theorem readRecords_written {o : ReadOptions} {s : Stream} {n : Nat} {b : Bytes}
    {records : List Record} (hs : s.Holds n b .ended) (h : FileWritten o records b) :
    ∃ t, readRecords o s = (.ok records, t) := by
  obtain ⟨header, head, body, backend, rfl, hhead, hc, hcount, hbody, hnd⟩ := h
  obtain ⟨t, ht, hstart⟩ := Reader.start_written hhead hc hs
  rw [← List.append_nil body] at ht
  obtain ⟨r', hy, hr', ht'⟩ := Reader.Yields.of_written
    (r := ⟨header, ⟨backend, header.hasChecksum, o.verify⟩, header.count, t⟩) hbody
    (Nat.le_of_eq hcount) ht
  have hdone : r'.remaining = 0 := by
    dsimp only at hr'
    omega
  have hrecords := Reader.distinctRecords_complete hy hdone (fresh_of_nodup hnd)
  obtain ⟨t', hend⟩ := Reader.expectEnd_ended ht'
  exact ⟨t', by rw [readRecords, hstart]; simp only [hrecords, Reader.finish_done hdone, hend]⟩

/-- Reading accepts exactly the files of the written form, as the records that they are a form
of. -/
theorem readRecords_eq_ok_iff (o : ReadOptions) (b : Bytes) (records : List Record) :
    (readRecords o (Stream.ofBytes b)).1 = .ok records ↔ FileWritten o records b := by
  have hs := Stream.holds_ofBytes b
  constructor
  · intro h
    exact (readRecords_sound hs (Prod.ext h rfl)).1
  · intro h
    obtain ⟨t, ht⟩ := readRecords_written hs h
    rw [ht]

end CollectionDelta
