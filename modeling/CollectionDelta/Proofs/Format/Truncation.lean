import CollectionDelta.Proofs.Format.File
import Mathlib.Control.Monad.Basic

/-!
Files that are cut short, and files with something after them.

* `Reader.start_starved`, `Reader.next_starved`: data that end within the head or within a record.
* `Reader.distinctRecords_starved`: data that end anywhere before the end of the last record.
* `Reader.expectEnd_trailing`: data that go on after the last record.
* `readRecords_cut_or_extended`: what the reading says of every proper beginning of a file, and of
  everything that goes on after one.
-/

namespace CollectionDelta

/-- A cut of two parts in a row is within the first one, or else at its end or within the second. -/
theorem cut_within_or_after {v u x y : Bytes} (h : v ++ u = x ++ y) :
    (∃ z, z ≠ [] ∧ x = v ++ z) ∨ ∃ z, v = x ++ z ∧ y = z ++ u := by
  rcases List.append_eq_append_iff.1 h with ⟨z, hx, hu⟩ | ⟨z, hv, hy⟩
  · cases z with
    | nil => exact .inr ⟨[], by simpa using hx.symm, by simpa using hu.symm⟩
    | cons c z => exact .inl ⟨c :: z, List.cons_ne_nil c z, hx⟩
  · exact .inr ⟨z, hv, hy⟩

namespace Reader

variable {r : Reader} {n : Nat} {v u : Bytes}

/-! ## Data that end too early -/

theorem start_starved {o : ReadOptions} {h : Header} {s : Stream} (hw : h.Written (v ++ u))
    (hu : u ≠ []) (hs : s.Holds n v .ended) :
    ∃ f t, start o s = (.error (.io f), t) ∧ f.kind = .unexpectedEof := by
  obtain ⟨f, t, hd, hf⟩ := Header.accepts_decode.starved hw hu hs
  exact ⟨f, t, by rw [start, hd], hf⟩

theorem next_starved {x : Record} (hr : r.remaining ≠ 0) (hw : r.decoder.RecordWritten x (v ++ u))
    (hu : u ≠ []) (hs : r.stream.Holds n v .ended) :
    ∃ f r', r.next = (.error (.io f), r') ∧ f.kind = .unexpectedEof := by
  obtain ⟨f, t, hd, hf⟩ := (RecordDecoder.accepts_record r.decoder).starved hw hu hs
  exact ⟨f, { r with stream := t }, by rw [next, if_neg hr, hd], hf⟩

theorem distinctRecords_error {seen : List String} {r' : Reader} {e : FormatError}
    (h : r.next = (.error e, r')) : r.distinctRecords seen = (.error e, r') := by
  rw [distinctRecords]
  split
  · next h' => rw [h] at h'; cases h'
  · next h' => rw [h] at h'; cases h'; rfl
  · next h' => rw [h] at h'; cases h'

/-- The records before the cut are read, and the one that it goes through is not. -/
theorem distinctRecords_starved {seen : List String} {xs : List Record}
    (hxs : r.decoder.RecordsWritten xs (v ++ u)) (hu : u ≠ []) (hr : xs.length ≤ r.remaining)
    (hfresh : Fresh seen xs) (hs : r.stream.Holds n v .ended) :
    ∃ f r', r.distinctRecords seen = (.error (.io f), r') ∧ f.kind = .unexpectedEof := by
  generalize hd : r.decoder = d at hxs
  generalize hb : v ++ u = b at hxs
  induction hxs generalizing r n v seen with
  | nil => exact absurd (List.append_eq_nil_iff.1 hb).2 hu
  | @cons x xs w ws hx hxs ih =>
    rw [List.length_cons] at hr
    have hleft : r.remaining ≠ 0 := by omega
    obtain ⟨hname, hfresh⟩ := fresh_cons.1 hfresh
    rcases cut_within_or_after hb with ⟨z, hz, rfl⟩ | ⟨z, rfl, rfl⟩
    · obtain ⟨f, r', hnext, hf⟩ := next_starved hleft (hd ▸ hx) hz hs
      exact ⟨f, r', distinctRecords_error hnext, hf⟩
    · obtain ⟨t, ht, hnext⟩ := next_written hleft (hd ▸ hx) hs
      let r₁ : Reader := { r with remaining := r.remaining - 1, stream := t }
      have hle : xs.length ≤ r₁.remaining := Nat.le_sub_one_of_lt hr
      obtain ⟨f, r', hrest, hf⟩ := ih hle hfresh ht hd rfl
      refine ⟨f, r', ?_, hf⟩
      rw [distinctRecords_next hnext, if_neg hname]
      simp only [r₁] at hrest
      rw [hrest]

/-! ## Data that go on -/

theorem expectEnd_trailing {s : Stream} {e : Stream.Ending} (hu : u ≠ []) (hs : s.Holds n u e) :
    ∃ t, expectEnd s = (.error (.invalid .trailingData), t) := by
  obtain ⟨t, hg, -⟩ := Stream.gather_holds (List.length_pos_iff.2 hu) hs
  cases u with
  | nil => exact absurd rfl hu
  | cons c u => exact ⟨t, by simp [expectEnd, hg]⟩

end Reader

/-! ## Files -/

variable {o : ReadOptions} {records : List Record} {b v u : Bytes}

theorem readRecords_starved {s : Stream} {n : Nat} (h : FileWritten o records (v ++ u))
    (hu : u ≠ []) (hs : s.Holds n v .ended) :
    ∃ f t, readRecords o s = (.error (.io f), t) ∧ f.kind = .unexpectedEof := by
  obtain ⟨header, head, body, backend, hvu, hhead, hc, hcount, hbody, hnd⟩ := h
  rcases cut_within_or_after hvu with ⟨z, hz, rfl⟩ | ⟨z, rfl, rfl⟩
  · obtain ⟨f, t, hstart, hf⟩ := Reader.start_starved hhead hz hs
    exact ⟨f, t, by rw [readRecords, hstart], hf⟩
  · obtain ⟨t, ht, hstart⟩ := Reader.start_written hhead hc hs
    obtain ⟨f, r', hrecords, hf⟩ := Reader.distinctRecords_starved
      (r := ⟨header, ⟨backend, header.hasChecksum, o.verify⟩, header.count, t⟩) hbody hu
      (Nat.le_of_eq hcount) (fresh_of_nodup hnd) ht
    exact ⟨f, r'.stream, by rw [readRecords, hstart]; simp only [hrecords], hf⟩

theorem readRecords_trailing {s : Stream} {n : Nat} {e : Stream.Ending}
    (h : FileWritten o records b) (hu : u ≠ []) (hs : s.Holds n (b ++ u) e) :
    ∃ t, readRecords o s = (.error (.invalid .trailingData), t) := by
  obtain ⟨header, head, body, backend, rfl, hhead, hc, hcount, hbody, hnd⟩ := h
  rw [List.append_assoc] at hs
  obtain ⟨t, ht, hstart⟩ := Reader.start_written hhead hc hs
  obtain ⟨r', hy, hr', ht'⟩ := Reader.Yields.of_written
    (r := ⟨header, ⟨backend, header.hasChecksum, o.verify⟩, header.count, t⟩) hbody
    (Nat.le_of_eq hcount) ht
  have hdone : r'.remaining = 0 := by
    dsimp only at hr'
    omega
  have hrecords := Reader.distinctRecords_complete hy hdone (fresh_of_nodup hnd)
  obtain ⟨t', hend⟩ := Reader.expectEnd_trailing hu ht'
  exact ⟨t', by rw [readRecords, hstart]; simp only [hrecords, Reader.finish_done hdone, hend]⟩

/-- Of the bytes of a file that is read, every proper beginning ends too early, and the file with
anything after it has trailing data; both are told from one another and from all other defects. -/
theorem readRecords_cut_or_extended (h : (readRecords o (Stream.ofBytes b)).1 = .ok records) :
    (∀ v u, b = v ++ u → u ≠ [] → ∃ f : Fault, f.kind = .unexpectedEof ∧
      (readRecords o (Stream.ofBytes v)).1 = .error (.io f)) ∧
      ∀ u, u ≠ [] →
        (readRecords o (Stream.ofBytes (b ++ u))).1 = .error (.invalid .trailingData) := by
  obtain ⟨hfile, -⟩ := readRecords_sound (Stream.holds_ofBytes b) (Prod.ext h rfl)
  constructor
  · rintro v u rfl hu
    obtain ⟨f, t, hread, hf⟩ := readRecords_starved hfile hu (Stream.holds_ofBytes v)
    exact ⟨f, hf, by rw [hread]⟩
  · intro u hu
    obtain ⟨t, hread⟩ := readRecords_trailing hfile hu (Stream.holds_ofBytes (b ++ u))
    rw [hread]

/-- An added name and a modified payload, after lengths with a zero group in front. -/
theorem padded_file_cut_or_extended :
    let b : Bytes := [0x52, 0x53, 0x44, 0x46, 0x01, 0x00, 0x80, 0x02, 0x00, 0x01, 0x61, 0x02, 0x80,
      0x01, 0x62, 0x00, 0x02, 0x80, 0x02, 0x07, 0x08]
    (readRecords {} (Stream.ofBytes b)).1 = .ok [.added "a", .modified "b" [7, 8]] ∧
      (∀ k < b.length, ∃ f : Fault, f.kind = .unexpectedEof ∧
        (readRecords {} (Stream.ofBytes (b.take k))).1 = .error (.io f)) ∧
      (readRecords {} (Stream.ofBytes (b ++ [0]))).1 = .error (.invalid .trailingData) := by
  intro b
  have hread : (readRecords {} (Stream.ofBytes b)).1 =
      .ok [.added "a", .modified "b" [7, 8]] := by decide +kernel
  obtain ⟨hcut, hextended⟩ := readRecords_cut_or_extended hread
  refine ⟨hread, fun k hk => ?_, hextended [0] (by decide)⟩
  refine hcut (b.take k) (b.drop k) (List.take_append_drop k b).symm ?_
  rw [ne_eq, List.drop_eq_nil_iff]
  omega

end CollectionDelta
