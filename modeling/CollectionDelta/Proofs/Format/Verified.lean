import CollectionDelta.Proofs.Listing

/-!
What the verification of checksums makes of a file.

* `RecordDecoder.bare`, `payloadWritten_iff`, `recordWritten_iff`: a record with a payload is what
  is read of it without checksums, and then the checksum.
* `RecordDecoder.record_refuses`: a stored checksum that is not the payload's ends the reading, and
  nothing before it does.
* `readRecords_refused`: a record that is refused after others decides what is read of the file.
* `WrittenRecord`, `FileSplit`: the records of a file, each with the bytes that it is read from.
* `readRecords_verified`: a file that is only read without verification has a first record whose
  stored checksum is wrong, and is refused for it.
-/

namespace CollectionDelta

open Decoder (Refuses)

namespace RecordDecoder

variable {d : RecordDecoder} {r : Record} {raw u w sum : Bytes}

/-! ## Records without their checksums -/

/-- The same codec, for a file without checksums. -/
def bare (d : RecordDecoder) : RecordDecoder := ⟨d.backend, false, false⟩

theorem payloadWritten_iff : d.PayloadWritten raw w ↔
    ∃ u sum, w = u ++ sum ∧ d.bare.PayloadWritten raw u ∧ d.SumWritten raw sum := by
  have hnone : d.bare.SumWritten raw [] := rfl
  constructor
  · rintro (⟨hl, hl', hsum⟩ | ⟨hb, hl, hl', hraw, hsum⟩)
    · exact ⟨_, _, rfl, by simpa using PayloadWritten.raw hl hl' hnone, hsum⟩
    · exact ⟨_, _, rfl, by simpa using PayloadWritten.packed (d := d.bare) hb hl hl' hraw hnone, hsum⟩
  · rintro ⟨u, sum, rfl, hu, hsum⟩
    rcases hu with ⟨hl, hl', rfl⟩ | ⟨hb, hl, hl', hraw, rfl⟩
    · simpa using PayloadWritten.raw hl hl' hsum
    · simpa using PayloadWritten.packed (d := d) hb hl hl' hraw hsum

theorem recordWritten_iff (hr : r.bytes? = some raw) : d.RecordWritten r w ↔
    ∃ u sum, w = u ++ sum ∧ d.bare.RecordWritten r u ∧ d.SumWritten raw sum := by
  constructor
  · intro h
    cases h with
    | added => cases hr
    | removed hname hpayload =>
      cases hr
      obtain ⟨u, sum, rfl, hu, hsum⟩ := payloadWritten_iff.1 hpayload
      exact ⟨_, sum, (List.append_assoc ..).symm, .removed hname hu, hsum⟩
    | modified hname hpayload =>
      cases hr
      obtain ⟨u, sum, rfl, hu, hsum⟩ := payloadWritten_iff.1 hpayload
      exact ⟨_, sum, (List.append_assoc ..).symm, .modified hname hu, hsum⟩
  · rintro ⟨u, sum, rfl, hu, hsum⟩
    cases hu with
    | added => cases hr
    | removed hname hpayload =>
      cases hr
      rw [List.append_assoc]
      exact .removed hname (payloadWritten_iff.2 ⟨_, sum, rfl, hpayload, hsum⟩)
    | modified hname hpayload =>
      cases hr
      rw [List.append_assoc]
      exact .modified hname (payloadWritten_iff.2 ⟨_, sum, rfl, hpayload, hsum⟩)

theorem recordWritten_of_none {d' : RecordDecoder} (hr : r.bytes? = none)
    (h : d.RecordWritten r w) : d'.RecordWritten r w := by
  cases h with
  | added hname => exact .added hname
  | removed => cases hr
  | modified => cases hr

/-- Of two decoders with the same codec, one accepts what the other one does where it accepts the
checksums. -/
theorem RecordWritten.of_sums {d' : RecordDecoder} (h : d.RecordWritten r w)
    (hb : d'.backend = d.backend)
    (hsum : ∀ raw u sum, r.bytes? = some raw → w = u ++ sum → d.SumWritten raw sum →
      d'.SumWritten raw sum) : d'.RecordWritten r w := by
  cases hr : r.bytes? with
  | none => exact recordWritten_of_none hr h
  | some raw =>
    obtain ⟨u, sum, rfl, hu, hs⟩ := (recordWritten_iff hr).1 h
    have hbare : d'.bare = d.bare := by rw [bare, bare, hb]
    exact (recordWritten_iff hr).2 ⟨u, sum, rfl, hbare ▸ hu, hsum raw u sum hr rfl hs⟩

/-! ## Checksums that are refused -/

theorem checked_refuses {name : String} (hd : d.checksum = true) (hv : d.verify = true)
    (hlen : sum.length = 4) (hsum : sum ≠ Bytes.ofNat 4 (adler32 raw)) :
    (d.checked name raw).Refuses (.checksumMismatch name (Bytes.toNat sum) (adler32 raw)) sum := by
  have hne : adler32 raw ≠ Bytes.toNat sum := by
    intro h
    rw [h, Bytes.ofNat_toNat hlen] at hsum
    exact hsum rfl
  have hfail := (Decoder.accepts_exactly 4).refuses_bind (k := fun sum : Bytes =>
    if d.verify ∧ adler32 raw ≠ sum.toNat then
      Decoder.fail (.checksumMismatch name sum.toNat (adler32 raw))
    else pure raw) ⟨rfl, hlen⟩ (by rw [if_pos ⟨hv, hne⟩]; exact Decoder.refuses_fail _)
  rw [List.append_nil] at hfail
  rw [checked, if_pos hd]
  exact hfail

theorem payload_refuses {name : String} {e : FormatError} (h : d.bare.PayloadWritten raw u)
    (hsum : (d.checked name raw).Refuses e sum) : (d.payload name).Refuses e (u ++ sum) := by
  have hunpacked {indicator : UInt8} {n : Nat} {stored : Bytes}
      (hu : d.unpack name indicator n stored = .ok raw) :
      (Decoder.ofExcept (d.unpack name indicator n stored) >>= d.checked name).Refuses e sum :=
    (Decoder.accepts_ofExcept _).refuses_bind (u := []) ⟨hu, rfl⟩ hsum
  rcases h with ⟨hl, hl', rfl⟩ | ⟨hb, hl, hl', hraw, rfl⟩
  · rw [List.append_nil]
    simp only [List.append_assoc]
    exact Decoder.accepts_byte.refuses_bind rfl <| Varint.accepts_varint.refuses_bind hl <|
      Varint.accepts_varint.refuses_bind hl' <| (Decoder.accepts_gathered _).refuses_bind
        ⟨rfl, rfl⟩ <| hunpacked (unpack_eq_ok.2 ⟨rfl, .inl ⟨rfl, rfl⟩⟩)
  · rw [List.append_nil]
    simp only [List.append_assoc]
    exact Decoder.accepts_byte.refuses_bind rfl <| Varint.accepts_varint.refuses_bind hl <|
      Varint.accepts_varint.refuses_bind hl' <| (Decoder.accepts_gathered _).refuses_bind
        ⟨rfl, rfl⟩ <| hunpacked (unpack_eq_ok.2 ⟨rfl, .inr ⟨rfl, _, hb, hraw⟩⟩)

/-- A record is taken up to its checksum, whatever becomes of that. -/
theorem record_refuses {e : FormatError} (h : d.bare.RecordWritten r u)
    (hr : r.bytes? = some raw) (hsum : (d.checked r.name raw).Refuses e sum) :
    d.record.Refuses e (u ++ sum) := by
  cases h with
  | added => cases hr
  | removed hname hpayload =>
    cases hr
    simp only [List.append_assoc]
    exact Decoder.accepts_byte.refuses_bind rfl <| accepts_recordName.refuses_bind hname <|
      (payload_refuses hpayload hsum).bind _
  | modified hname hpayload =>
    cases hr
    simp only [List.append_assoc]
    exact Decoder.accepts_byte.refuses_bind rfl <| accepts_recordName.refuses_bind hname <|
      (payload_refuses hpayload hsum).bind _

end RecordDecoder

/-! ## Files that are refused at a record -/

theorem Reader.next_decoder {r r' : Reader} {a : Except FormatError (Option Record)}
    (h : r.next = (a, r')) : r'.decoder = r.decoder := by
  unfold next at h
  split at h
  · cases h; rfl
  · split at h
    · cases h; rfl
    · cases h; rfl

theorem Reader.Yields.decoder_eq {r r' : Reader} {xs : List Record} (h : r.Yields xs r') :
    r'.decoder = r.decoder := by
  induction h with
  | nil => rfl
  | cons hnext _ ih => exact ih.trans (Reader.next_decoder hnext)

theorem Reader.next_refuses {r : Reader} {n : Nat} {w rest : Bytes} {e : Stream.Ending}
    {err : FormatError} (hr : r.remaining ≠ 0) (hw : r.decoder.record.Refuses err w)
    (hs : r.stream.Holds n (w ++ rest) e) : ∃ r', r.next = (.error err, r') := by
  obtain ⟨t, hd⟩ := hw hs
  exact ⟨{ r with stream := t }, by rw [next, if_neg hr, hd]⟩

/-- After a head and records of it, another one is refused. -/
theorem readRecords_refused {o : ReadOptions} {header : Header} {backend : Option Backend}
    {before : List Record} {err : FormatError} {head body w rest : Bytes} {s : Stream} {n : Nat}
    {e : Stream.Ending} (hhead : header.Written head) (hc : CodecFor o header.codec backend)
    (hbody : RecordDecoder.RecordsWritten ⟨backend, header.hasChecksum, o.verify⟩ before body)
    (hnd : (before.map Record.name).Nodup) (hcount : before.length < header.count)
    (hw : (RecordDecoder.record ⟨backend, header.hasChecksum, o.verify⟩).Refuses err w)
    (hs : s.Holds n (head ++ (body ++ (w ++ rest))) e) : (readRecords o s).1 = .error err := by
  obtain ⟨t, ht, hstart⟩ := Reader.start_written hhead hc hs
  obtain ⟨r', hy, hr', ht'⟩ := Reader.Yields.of_written
    (r := ⟨header, ⟨backend, header.hasChecksum, o.verify⟩, header.count, t⟩) hbody
    (Nat.le_of_lt hcount) ht
  have hleft : r'.remaining ≠ 0 := by
    dsimp only at hr'
    omega
  have hdecoder : r'.decoder = ⟨backend, header.hasChecksum, o.verify⟩ := hy.decoder_eq
  obtain ⟨r'', hnext⟩ := Reader.next_refuses hleft (hdecoder ▸ hw) ht'
  exact readRecords_of_decoded (.records (by rw [hstart]) hy (fresh_of_nodup hnd) (.refused hnext))

/-! ## Records and their bytes -/

/-- A record, and the bytes of a file that it is read from. -/
structure WrittenRecord where
  record : Record
  written : Bytes

namespace WrittenRecord

/-- The last four bytes, which are the checksum after a payload. -/
def stored (x : WrittenRecord) : Bytes := x.written.drop (x.written.length - 4)

theorem stored_eq {x : WrittenRecord} {u sum : Bytes} (hw : x.written = u ++ sum)
    (hlen : sum.length = 4) : x.stored = sum := by
  rw [stored, hw, List.length_append, hlen, Nat.add_sub_cancel, List.drop_left]

/-- The stored checksum is that of the payload, big-endian. -/
def Sound (x : WrittenRecord) : Prop :=
  ∀ raw, x.record.bytes? = some raw → x.stored = Bytes.ofNat 4 (adler32 raw)

theorem exists_first_unsound {xs : List WrittenRecord} (h : ∃ x ∈ xs, ¬ x.Sound) :
    ∃ before x after, xs = before ++ x :: after ∧ (∀ y ∈ before, y.Sound) ∧ ¬ x.Sound := by
  induction xs with
  | nil => simp at h
  | cons x xs ih =>
    by_cases hx : x.Sound
    · obtain ⟨before, y, after, rfl, hbefore, hy⟩ := ih (by simpa [hx] using h)
      exact ⟨x :: before, y, after, rfl, List.forall_mem_cons.2 ⟨hx, hbefore⟩, hy⟩
    · exact ⟨[], x, xs, rfl, nofun, hx⟩

end WrittenRecord

/-- A file that is read, and the bytes of each of its records. -/
def FileSplit (o : ReadOptions) : Form (List WrittenRecord) := fun xs w =>
  ∃ (header : Header) (head : Bytes) (backend : Option Backend),
    w = head ++ xs.flatMap WrittenRecord.written ∧ header.Written head ∧
    CodecFor o header.codec backend ∧ xs.length = header.count ∧
    (∀ x ∈ xs, RecordDecoder.RecordWritten ⟨backend, header.hasChecksum, o.verify⟩
      x.record x.written) ∧ (xs.map fun x => x.record.name).Nodup

namespace RecordDecoder

variable {d : RecordDecoder} {xs ys : List WrittenRecord}

theorem recordsWritten_flatMap (h : ∀ x ∈ xs, d.RecordWritten x.record x.written) :
    d.RecordsWritten (xs.map WrittenRecord.record) (xs.flatMap WrittenRecord.written) := by
  induction xs with
  | nil => exact .nil
  | cons x xs ih =>
    exact .cons (h x (List.mem_cons_self ..)) (ih fun y hy => h y (List.mem_cons_of_mem _ hy))

theorem RecordsWritten.split {records : List Record} {w : Bytes}
    (h : d.RecordsWritten records w) : ∃ xs : List WrittenRecord,
      xs.map WrittenRecord.record = records ∧ xs.flatMap WrittenRecord.written = w ∧
      ∀ x ∈ xs, d.RecordWritten x.record x.written := by
  induction h with
  | nil => exact ⟨[], rfl, rfl, nofun⟩
  | @cons r _ w _ hr _ ih =>
    obtain ⟨xs, rfl, rfl, hxs⟩ := ih
    refine ⟨⟨r, w⟩ :: xs, rfl, rfl, fun x hx => ?_⟩
    rcases List.mem_cons.1 hx with rfl | hx
    · exact hr
    · exact hxs x hx

/-- As many records of the same bytes are the same, and so are the bytes of each. -/
theorem eq_of_flatMap_eq (hxs : ∀ x ∈ xs, d.RecordWritten x.record x.written)
    (hys : ∀ y ∈ ys, d.RecordWritten y.record y.written) (hlen : xs.length = ys.length)
    (h : xs.flatMap WrittenRecord.written = ys.flatMap WrittenRecord.written) : xs = ys := by
  induction xs generalizing ys with
  | nil => exact (List.length_eq_zero_iff.1 hlen.symm).symm
  | cons x xs ih =>
    cases ys with
    | nil => cases hlen
    | cons y ys =>
      obtain ⟨x, v⟩ := x
      obtain ⟨y, w⟩ := y
      obtain ⟨rfl, rfl, hrest⟩ := (accepts_record d).prefixFree (hxs _ (List.mem_cons_self ..))
        (hys _ (List.mem_cons_self ..)) h
      rw [ih (fun x hx => hxs x (List.mem_cons_of_mem _ hx))
        (fun y hy => hys y (List.mem_cons_of_mem _ hy)) (Nat.succ.inj hlen) hrest]

/-- With the checksums that are stored, a record is read with verification as it is without. -/
theorem RecordWritten.verified {backend : Option Backend} {checksum : Bool} {x : WrittenRecord}
    (h : RecordWritten ⟨backend, checksum, false⟩ x.record x.written)
    (hx : checksum = true → x.Sound) :
    RecordWritten ⟨backend, checksum, true⟩ x.record x.written := by
  refine h.of_sums rfl fun raw u sum hraw hw hsum => ?_
  unfold SumWritten at hsum ⊢
  split
  · next hc =>
    rw [if_pos hc] at hsum
    refine ⟨hsum.1, fun _ => ?_⟩
    rw [← hx hc raw hraw, WrittenRecord.stored_eq hw hsum.1]
  · next hc => rwa [if_neg hc] at hsum

theorem RecordWritten.sound {backend : Option Backend} {x : WrittenRecord}
    (h : RecordWritten ⟨backend, true, true⟩ x.record x.written) : x.Sound := by
  intro raw hraw
  obtain ⟨u, sum, hw, -, hsum⟩ := (recordWritten_iff hraw).1 h
  rw [WrittenRecord.stored_eq hw hsum.1, hsum.2 rfl]

theorem RecordWritten.unverified {backend : Option Backend} {checksum verify : Bool} {r : Record}
    {w : Bytes} (h : RecordWritten ⟨backend, checksum, verify⟩ r w) :
    RecordWritten ⟨backend, checksum, false⟩ r w := by
  refine h.of_sums rfl fun raw u sum _ _ hsum => ?_
  unfold SumWritten at hsum ⊢
  split
  · next hc => exact ⟨(if_pos hc ▸ hsum).1, nofun⟩
  · next hc => rwa [if_neg hc] at hsum

/-- A record with a wrong checksum is refused for it. -/
theorem RecordWritten.mismatch {backend : Option Backend} {x : WrittenRecord} {raw : Bytes}
    (h : RecordWritten ⟨backend, true, false⟩ x.record x.written) (hraw : x.record.bytes? = some raw)
    (hx : x.stored ≠ Bytes.ofNat 4 (adler32 raw)) : x.stored.length = 4 ∧
      (record ⟨backend, true, true⟩).Refuses
        (.checksumMismatch x.record.name (Bytes.toNat x.stored) (adler32 raw)) x.written := by
  obtain ⟨u, sum, hw, hu, hsum⟩ := (recordWritten_iff hraw).1 h
  have hlen : sum.length = 4 := hsum.1
  rw [WrittenRecord.stored_eq hw hlen] at hx ⊢
  rw [hw]
  exact ⟨hlen, record_refuses hu hraw (checked_refuses rfl rfl hlen hx)⟩

end RecordDecoder

/-! ## Files and their records -/

theorem CodecFor.of_backend_eq {o o' : ReadOptions} {codec : Option UInt8}
    {backend : Option Backend} (h : CodecFor o codec backend) (ho : o'.backend = o.backend) :
    CodecFor o' codec backend := by
  cases h with
  | none => exact .none
  | given h => exact .given (ho.trans h)
  | lzma h => exact .lzma fun own hown => h own (ho.symm.trans hown)
  | zlib h => exact .zlib fun own hown => h own (ho.symm.trans hown)

theorem CodecFor.unique {o : ReadOptions} {codec : Option UInt8} {backend backend' : Option Backend}
    (h : CodecFor o codec backend) (h' : CodecFor o codec backend') : backend = backend' :=
  Except.ok.inj ((Reader.backendFor_eq_ok.2 h).symm.trans (Reader.backendFor_eq_ok.2 h'))

section

variable {o : ReadOptions} {b : Bytes} {xs ys : List WrittenRecord}

theorem FileWritten.split {records : List Record} (h : FileWritten o records b) :
    ∃ xs, FileSplit o xs b ∧ xs.map WrittenRecord.record = records := by
  obtain ⟨header, head, body, backend, rfl, hhead, hc, hcount, hbody, hnd⟩ := h
  obtain ⟨xs, rfl, rfl, hxs⟩ := hbody.split
  rw [List.length_map] at hcount
  rw [List.map_map] at hnd
  exact ⟨xs, ⟨header, head, backend, rfl, hhead, hc, hcount, hxs, hnd⟩, rfl⟩

theorem FileSplit.written (h : FileSplit o xs b) :
    FileWritten o (xs.map WrittenRecord.record) b := by
  obtain ⟨header, head, backend, rfl, hhead, hc, hcount, hxs, hnd⟩ := h
  rw [← List.length_map WrittenRecord.record] at hcount
  rw [← Function.comp_def, ← List.map_map] at hnd
  exact ⟨header, head, _, backend, rfl, hhead, hc, hcount,
    RecordDecoder.recordsWritten_flatMap hxs, hnd⟩

theorem FileSplit.unique (h : FileSplit o xs b) (h' : FileSplit o ys b) : xs = ys := by
  obtain ⟨header, head, backend, rfl, hhead, hc, hcount, hxs, -⟩ := h
  obtain ⟨header', head', backend', hb, hhead', hc', hcount', hys, -⟩ := h'
  obtain ⟨rfl, rfl, hbody⟩ := Header.accepts_decode.prefixFree hhead hhead' hb
  obtain rfl := hc.unique hc'
  exact RecordDecoder.eq_of_flatMap_eq hxs hys (hcount.trans hcount'.symm) hbody

end

/-- The sixth byte of a file says whether it has checksums. -/
theorem Header.Written.flags_eq {header : Header} {head body : Bytes} (h : header.Written head) :
    (head ++ body).getD 5 0 = header.flags := by
  obtain ⟨count, rfl, -⟩ := h
  rfl

variable {backend : Option Backend} {b : Bytes} {xs before after : List WrittenRecord}
  {x : WrittenRecord}

theorem FileSplit.unverified (h : FileSplit ⟨true, backend⟩ xs b) :
    FileSplit ⟨false, backend⟩ xs b := by
  obtain ⟨header, head, own, rfl, hhead, hc, hcount, hwritten, hnd⟩ := h
  exact ⟨header, head, own, rfl, hhead, hc.of_backend_eq rfl, hcount,
    fun x hx => (hwritten x hx).unverified, hnd⟩

/-- A file of which no stored checksum is wrong is read with verification as well. -/
theorem FileSplit.verified (h : FileSplit ⟨false, backend⟩ xs b)
    (hxs : Header.checksumFlag (b.getD 5 0) = true → ∀ x ∈ xs, x.Sound) :
    FileSplit ⟨true, backend⟩ xs b := by
  obtain ⟨header, head, own, rfl, hhead, hc, hcount, hwritten, hnd⟩ := h
  rw [hhead.flags_eq] at hxs
  exact ⟨header, head, own, rfl, hhead, hc.of_backend_eq rfl, hcount,
    fun x hx => (hwritten x hx).verified fun hsums => hxs hsums x hx, hnd⟩

/-- The first record with a wrong checksum is what a file is refused for. -/
theorem FileSplit.mismatch {raw : Bytes} {s : Stream} {n : Nat} {e : Stream.Ending}
    (h : FileSplit ⟨false, backend⟩ (before ++ x :: after) b)
    (hflag : Header.checksumFlag (b.getD 5 0) = true) (hbefore : ∀ y ∈ before, y.Sound)
    (hraw : x.record.bytes? = some raw) (hx : x.stored ≠ Bytes.ofNat 4 (adler32 raw))
    (hs : s.Holds n b e) : x.stored.length = 4 ∧ (readRecords ⟨true, backend⟩ s).1 =
      .error (.checksumMismatch x.record.name (Bytes.toNat x.stored) (adler32 raw)) := by
  obtain ⟨header, head, own, rfl, hhead, hc, hcount, hwritten, hnd⟩ := h
  rw [hhead.flags_eq] at hflag
  have hsums : header.hasChecksum = true := hflag
  rw [hsums] at hwritten
  obtain ⟨hlen, hrefuses⟩ := (hwritten x (by simp)).mismatch hraw hx
  have hw : (RecordDecoder.record ⟨own, header.hasChecksum, true⟩).Refuses
      (.checksumMismatch x.record.name (Bytes.toNat x.stored) (adler32 raw)) x.written := by
    rw [hsums]
    exact hrefuses
  have hbody : RecordDecoder.RecordsWritten ⟨own, header.hasChecksum, true⟩
      (before.map WrittenRecord.record) (before.flatMap WrittenRecord.written) := by
    rw [hsums]
    exact RecordDecoder.recordsWritten_flatMap fun y hy =>
      (hwritten y (List.mem_append_left _ hy)).verified fun _ => hbefore y hy
  have hcount : (before.map WrittenRecord.record).length < header.count := by
    rw [List.length_append, List.length_cons] at hcount
    rw [List.length_map]
    omega
  have hnames : ((before.map WrittenRecord.record).map Record.name).Nodup := by
    rw [List.map_append] at hnd
    rw [List.map_map]
    exact (List.nodup_append.1 hnd).1
  rw [List.flatMap_append, List.flatMap_cons] at hs
  exact ⟨hlen, readRecords_refused (o := ⟨true, backend⟩) hhead (hc.of_backend_eq rfl) hbody hnames
    hcount hw hs⟩

/-! ## Files without checksums -/

/-- The same reader with another decoder of its records. -/
def Reader.withDecoder (r : Reader) (d : RecordDecoder) : Reader := { r with decoder := d }

namespace Reader

variable {r : Reader} {d : RecordDecoder}

theorem next_withDecoder {r' : Reader} {a : Except FormatError (Option Record)}
    (h : d.record = r.decoder.record) (hnext : r.next = (a, r')) :
    (r.withDecoder d).next = (a, r'.withDecoder d) := by
  rw [show (a, r'.withDecoder d) = (r.next.1, r.next.2.withDecoder d) by rw [hnext]]
  by_cases hr : r.remaining = 0
  · simp [next, withDecoder, hr]
  · rcases hrecord : r.decoder.record r.stream with ⟨err | x, t⟩
    · simp [next, withDecoder, hr, h, hrecord]
    · simp [next, withDecoder, hr, h, hrecord]

theorem distinctRecords_withDecoder (seen : List String) (h : d.record = r.decoder.record) :
    (r.withDecoder d).distinctRecords seen =
      ((r.distinctRecords seen).1, (r.distinctRecords seen).2.withDecoder d) := by
  fun_induction distinctRecords seen r with
  | case1 seen r r₁ hnext =>
    obtain ⟨hr, rfl⟩ := next_eq_none_iff.1 hnext
    exact distinctRecords_done seen hr
  | case2 seen r err r₁ hnext => exact distinctRecords_error (next_withDecoder h hnext)
  | case3 seen r x r₁ hnext hx =>
    rw [distinctRecords_next (next_withDecoder h hnext), if_pos hx]
  | case4 seen r x r₁ hnext hx more r₂ hmore ih =>
    rw [next_decoder hnext, hmore] at ih
    rw [distinctRecords_next (next_withDecoder h hnext), if_neg hx, ih h]
  | case5 seen r x r₁ hnext hx err r₂ hmore ih =>
    rw [next_decoder hnext, hmore] at ih
    rw [distinctRecords_next (next_withDecoder h hnext), if_neg hx, ih h]

theorem start_verifying (backend : Option Backend) (s : Stream) :
    start ⟨true, backend⟩ s = match start ⟨false, backend⟩ s with
      | (.error err, t) => (.error err, t)
      | (.ok r, t) =>
        (.ok (r.withDecoder ⟨r.decoder.backend, r.header.hasChecksum, true⟩), t) := by
  have hcodec (codec : Option UInt8) :
      backendFor ⟨true, backend⟩ codec = backendFor ⟨false, backend⟩ codec := by
    cases codec <;> rfl
  rcases hdecode : Header.decode s with ⟨err | header, t⟩
  · simp [start, hdecode]
  · cases hown : backendFor ⟨false, backend⟩ header.codec with
    | error err => simp [start, hdecode, hcodec, hown]
    | ok own => simp [start, hdecode, hcodec, hown, withDecoder]

end Reader

/-- Nothing is verified in a file without checksums. -/
theorem readRecords_of_no_checksums {s : Stream} {n : Nat} {e : Stream.Ending}
    (hs : s.Holds n b e) (hflag : Header.checksumFlag (b.getD 5 0) = false) :
    readRecords ⟨true, backend⟩ s = readRecords ⟨false, backend⟩ s := by
  rw [readRecords, readRecords, Reader.start_verifying]
  rcases hstart : Reader.start ⟨false, backend⟩ s with ⟨err | r, t⟩
  · rfl
  · obtain ⟨head, rest, rfl, hhead, -, -, -, hd⟩ := Reader.start_sound hs hstart
    rw [hhead.flags_eq] at hflag
    have hsums : r.header.hasChecksum = false := hflag
    have hrecord : RecordDecoder.record ⟨r.decoder.backend, r.header.hasChecksum, true⟩ =
        r.decoder.record := by
      rw [hd, hsums]
      rfl
    simp only [Reader.distinctRecords_withDecoder [] hrecord]
    rcases hrecords : r.distinctRecords [] with ⟨err | records, r'⟩
    · rfl
    · have hdone := (Reader.distinctRecords_sound hrecords).2.1
      simp only [Reader.finish_done hdone, Reader.finish_done
        (r := r'.withDecoder ⟨r.decoder.backend, r.header.hasChecksum, true⟩) hdone]
      rfl

/-! ## Reading with verification and without -/

/-- Verification takes files away and does nothing else. What is read with it is read without it,
as the same records. A file that is read without it only is refused for the first record, in the
order of the file, whose four stored bytes are not the checksum of its payload; `FileSplit` says
which bytes these are, and says so in one way only. Where the head declares no checksums, the two
readings have the same result, errors included. -/
theorem readRecords_verified (backend : Option Backend) (b : Bytes) :
    (∀ records, (readRecords ⟨true, backend⟩ (.ofBytes b)).1 = .ok records →
      (readRecords ⟨false, backend⟩ (.ofBytes b)).1 = .ok records) ∧
    (∀ records, (readRecords ⟨false, backend⟩ (.ofBytes b)).1 = .ok records →
      (∀ records', (readRecords ⟨true, backend⟩ (.ofBytes b)).1 ≠ .ok records') →
      ∃ before x after raw,
        (∀ xs, FileSplit ⟨false, backend⟩ xs b ↔ xs = before ++ x :: after) ∧
        (before ++ x :: after).map WrittenRecord.record = records ∧
        (∀ y ∈ before, y.Sound) ∧ x.record.bytes? = some raw ∧ x.stored.length = 4 ∧
        x.stored ≠ Bytes.ofNat 4 (adler32 raw) ∧
        (readRecords ⟨true, backend⟩ (.ofBytes b)).1 = .error
          (.checksumMismatch x.record.name (Bytes.toNat x.stored) (adler32 raw))) ∧
    (Header.checksumFlag (b.getD 5 0) = false →
      (readRecords ⟨true, backend⟩ (.ofBytes b)).1 =
        (readRecords ⟨false, backend⟩ (.ofBytes b)).1) := by
  refine ⟨fun records h => ?_, fun records h hrefused => ?_, fun hflag => ?_⟩
  · rw [readRecords_eq_ok_iff] at h ⊢
    obtain ⟨xs, hxs, rfl⟩ := h.split
    exact hxs.unverified.written
  · rw [readRecords_eq_ok_iff] at h
    obtain ⟨xs, hxs, rfl⟩ := h.split
    obtain ⟨hflag, hunsound⟩ : Header.checksumFlag (b.getD 5 0) = true ∧ ∃ x ∈ xs, ¬ x.Sound := by
      by_contra hnone
      have hsound : FileSplit ⟨true, backend⟩ xs b := hxs.verified fun hflag x hx =>
        Classical.not_not.1 fun hx' => hnone ⟨hflag, x, hx, hx'⟩
      exact hrefused _ ((readRecords_eq_ok_iff _ _ _).2 hsound.written)
    obtain ⟨before, x, after, rfl, hbefore, hx⟩ :=
      WrittenRecord.exists_first_unsound hunsound
    obtain ⟨raw, hraw, hstored⟩ : ∃ raw, x.record.bytes? = some raw ∧
        x.stored ≠ Bytes.ofNat 4 (adler32 raw) := by
      simpa [WrittenRecord.Sound] using hx
    obtain ⟨hlen, hmismatch⟩ :=
      hxs.mismatch hflag hbefore hraw hstored (Stream.holds_ofBytes b)
    exact ⟨before, x, after, raw, fun ys => ⟨fun hys => hys.unique hxs, fun hys => hys ▸ hxs⟩, rfl,
      hbefore, hraw, hlen, hstored, hmismatch⟩
  · rw [readRecords_of_no_checksums (Stream.holds_ofBytes b) hflag]

/-- Of two wrong checksums, that of `c` comes first. -/
theorem wrong_checksums_verified :
    let b : Bytes := [0x52, 0x53, 0x44, 0x46, 0x01, 0x01, 0x04, 0x00, 0x01, 0x61, 0x02, 0x01, 0x62,
      0x00, 0x02, 0x02, 0x07, 0x08, 0x00, 0x18, 0x00, 0x10, 0x01, 0x01, 0x63, 0x00, 0x01, 0x01,
      0x01, 0x00, 0x02, 0x00, 0x03, 0x02, 0x01, 0x64, 0x00, 0x00, 0x00, 0x00, 0x00, 0x00, 0x00]
    let records : List Record :=
      [.added "a", .modified "b" [7, 8], .removed "c" [1], .modified "d" []]
    (readRecords ⟨false, none⟩ (.ofBytes b)).1 = .ok records ∧
      (readRecords ⟨true, none⟩ (.ofBytes b)).1 =
        .error (.checksumMismatch "c" 0x00020003 0x00020002) ∧
      ∃ before x after raw, (before ++ x :: after).map WrittenRecord.record = records ∧
        (∀ y ∈ before, y.Sound) ∧ x.record.bytes? = some raw ∧
        x.stored ≠ Bytes.ofNat 4 (adler32 raw) ∧
        FormatError.checksumMismatch "c" 0x00020003 0x00020002 =
          .checksumMismatch x.record.name (Bytes.toNat x.stored) (adler32 raw) := by
  intro b records
  have hunverified : (readRecords ⟨false, none⟩ (.ofBytes b)).1 = .ok records := by decide +kernel
  have hverified : (readRecords ⟨true, none⟩ (.ofBytes b)).1 =
      .error (.checksumMismatch "c" 0x00020003 0x00020002) := by decide +kernel
  obtain ⟨before, x, after, raw, -, hrecords, hbefore, hraw, -, hstored, herror⟩ :=
    (readRecords_verified none b).2.1 records hunverified (by rw [hverified]; nofun)
  exact ⟨hunverified, hverified, before, x, after, raw, hrecords, hbefore, hraw, hstored,
    Except.error.inj (hverified.symm.trans herror)⟩

end CollectionDelta
