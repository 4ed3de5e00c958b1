import CollectionDelta.Proofs.Format.File
import CollectionDelta.Proofs.Sink

/-!
What is written is read back.

* `Writable`: the records that a file can hold.
* `ReadOptions.Provides`: the reader has the codec that a file was written with.
* `Backend.LosslessWithin`: a codec that loses nothing of payloads up to a length.
* `ofRecord_written`, `ofList_written`: the encoding of records is a written form of them.
* `written_records_read_back`: reading undoes writing, record by record and for a whole file.
* `Backend.runs`: a codec that loses nothing and does shorten some payloads.
-/

namespace CollectionDelta

/-- Names are at most 65536 bytes long, and lengths and counts fit in 64 bits, as those of anything
in memory do. -/
structure Writable (records : List Record) : Prop where
  name_le : ∀ r ∈ records, (Bytes.ofText r.name).length ≤ maxNameLength
  size_lt : ∀ r ∈ records, r.size < 2 ^ 64
  length_lt : records.length < 2 ^ 64

/-- The codec `unpacking` gives back what `packing` has packed. -/
def Unpacks (unpacking packing : Option Backend) : Prop :=
  ∀ p, packing = some p → ∃ u, unpacking = some u ∧ u.decompress = p.decompress

/-- A reader has the codec of a file: its own, or a built-in one of the same number. -/
def ReadOptions.Provides (o : ReadOptions) (packing : Option Backend) : Prop :=
  ∃ unpacking, Reader.backendFor o (packing.map Backend.id) = .ok unpacking ∧
    Unpacks unpacking packing

theorem ReadOptions.provides_of_backend_eq {o : ReadOptions} {packing : Option Backend}
    (h : o.backend = packing) : o.Provides packing := by
  refine ⟨packing, Reader.backendFor_eq_ok.2 ?_, fun p hp => ⟨p, hp, rfl⟩⟩
  cases packing with
  | none => exact .none
  | some p => exact .given h

theorem Backend.pack_eq_some {backend : Backend} {raw packed : Bytes} :
    backend.pack raw = .ok (some packed) ↔ backend.worthwhile raw = true ∧
      backend.compress raw = .ok packed ∧ packed.length < raw.length := by
  unfold pack
  cases backend.worthwhile raw with
  | false => simp
  | true =>
    cases backend.compress raw with
    | error e => simp [Except.map]
    | ok b =>
      simp only [if_true, Except.map, Except.ok.injEq, Option.ite_none_right_eq_some,
        Option.some.injEq, true_and]
      constructor
      · rintro ⟨hlt, rfl⟩
        exact ⟨rfl, hlt⟩
      · rintro ⟨rfl, hlt⟩
        exact ⟨hlt, rfl⟩

/-- Every payload below the limit that the backend shortens comes back whole, and none makes it
fail. Codecs that count with 64 bits stop there. -/
structure Backend.LosslessWithin (backend : Backend) (limit : Nat) : Prop where
  compress_ok : ∀ raw : Bytes, raw.length < limit → ∃ packed, backend.compress raw = .ok packed
  decompress_pack : ∀ (raw packed : Bytes), raw.length < limit →
    backend.pack raw = .ok (some packed) → backend.decompress packed raw.length = .ok raw

namespace Encoding

/-! ## The head -/

theorem checksumFlag_flagsOf (checksum compressed : Bool) :
    Header.checksumFlag (Header.flagsOf checksum compressed) = checksum := by
  cases checksum <;> cases compressed <;> rfl

theorem compressedFlag_flagsOf (checksum compressed : Bool) :
    Header.compressedFlag (Header.flagsOf checksum compressed) = compressed := by
  cases checksum <;> cases compressed <;> rfl

theorem flagsOf_lt (checksum compressed : Bool) :
    (Header.flagsOf checksum compressed).toNat < 4 := by
  cases checksum <;> cases compressed <;> decide

theorem header_written {o : WriteOptions} {records : List Record} (h : records.length < 2 ^ 64) :
    (header o records).Written (header o records).encode := by
  have hcompressed : (header o records).isCompressed = o.backend.isSome :=
    compressedFlag_flagsOf _ _
  refine ⟨Varint.encode records.length, ?_, flagsOf_lt _ _, ?_, Varint.written_encode h⟩
  · unfold Header.encode Header.pieces
    rw [hcompressed]
    cases hb : o.backend <;> simp [header, hb, magic, Header.version]
  · rw [hcompressed, header, Option.isSome_map]

/-! ## Records -/

variable {o : WriteOptions} {d : RecordDecoder}

theorem store_lossless {backend : Option Backend}
    (h : ∀ p, backend = some p → p.LosslessWithin (2 ^ 64)) {raw : Bytes}
    (hraw : raw.length < 2 ^ 64) : store backend raw = .ok ⟨rawIndicator, raw⟩ ∨
      ∃ p packed, backend = some p ∧ store backend raw = .ok ⟨packedIndicator, packed⟩ ∧
        packed.length < raw.length ∧ p.decompress packed raw.length = .ok raw := by
  cases backend with
  | none => exact .inl rfl
  | some p =>
    obtain ⟨packed, hpacked⟩ := (h p rfl).compress_ok raw hraw
    by_cases hpack : p.worthwhile raw ∧ packed.length < raw.length
    · have hp : p.pack raw = .ok (some packed) :=
        Backend.pack_eq_some.2 ⟨hpack.1, hpacked, hpack.2⟩
      exact .inr ⟨p, packed, rfl, by simp [store, hp, Except.map], hpack.2,
        (h p rfl).decompress_pack raw packed hraw hp⟩
    · have hp : p.pack raw = .ok none := by
        unfold Backend.pack
        split
        · next hw =>
          have hlen : ¬ packed.length < raw.length := fun hlen => hpack ⟨hw, hlen⟩
          simp [hpacked, Except.map, hlen]
        · rfl
      exact .inl (by simp [store, hp, Except.map])

theorem sum_written (hd : d.checksum = o.checksum) (raw : Bytes) :
    d.SumWritten raw (if o.checksum then [Bytes.ofNat 4 (adler32 raw)] else []).flatten := by
  unfold RecordDecoder.SumWritten
  rw [hd]
  split
  · rw [List.flatten_singleton]
    exact ⟨Bytes.length_ofNat 4 _, fun _ => rfl⟩
  · rfl

theorem payload_written (hB : ∀ p, o.backend = some p → p.LosslessWithin (2 ^ 64))
    (hd : d.checksum = o.checksum) (hu : Unpacks d.backend o.backend) {raw : Bytes}
    (hraw : raw.length < 2 ^ 64) : ∃ stored, store o.backend raw = .ok stored ∧
      d.PayloadWritten raw (payloadPieces o.checksum raw stored).flatten := by
  have hl := Varint.written_encode hraw
  have hsum := sum_written hd raw
  rcases store_lossless hB hraw with hs | ⟨p, packed, hp, hs, hlen, hdec⟩
  · refine ⟨_, hs, ?_⟩
    simpa [payloadPieces, rawIndicator] using RecordDecoder.PayloadWritten.raw hl hl hsum
  · obtain ⟨u, hu, hpu⟩ := hu p hp
    have hl' := Varint.written_encode (Nat.lt_trans hlen hraw)
    refine ⟨_, hs, ?_⟩
    simpa [payloadPieces, packedIndicator] using
      RecordDecoder.PayloadWritten.packed hu hl hl' (hpu ▸ hdec) hsum

theorem name_written {name : String} (h : (Bytes.ofText name).length ≤ maxNameLength) :
    NameWritten name (Varint.encode (Bytes.ofText name).length ++ Bytes.ofText name) := by
  refine ⟨_, rfl, h, Varint.written_encode ?_⟩
  unfold maxNameLength at h
  omega

theorem flatten_namePieces (r : Record) : (namePieces r).flatten = [r.kind.code] ++
    (Varint.encode (Bytes.ofText r.name).length ++ Bytes.ofText r.name) := by
  simp [namePieces]

theorem ofRecord_written (hB : ∀ p, o.backend = some p → p.LosslessWithin (2 ^ 64))
    (hd : d.checksum = o.checksum) (hu : Unpacks d.backend o.backend) {r : Record}
    (hname : (Bytes.ofText r.name).length ≤ maxNameLength) (hsize : r.size < 2 ^ 64)
    (s : WriteStats) :
    ∃ pieces t, ofRecord o s r = ⟨pieces, .ok t⟩ ∧ d.RecordWritten r pieces.flatten := by
  have hn := name_written hname
  rw [ofRecord, if_neg (Nat.not_lt.2 hname)]
  cases r with
  | added name =>
    refine ⟨_, _, rfl, ?_⟩
    rw [flatten_namePieces]
    exact .added hn
  | removed name raw =>
    obtain ⟨stored, hs, hp⟩ := payload_written hB hd hu hsize
    simp only [Record.bytes?, hs]
    refine ⟨_, _, rfl, ?_⟩
    rw [List.flatten_append, flatten_namePieces]
    exact .removed hn hp
  | modified name raw =>
    obtain ⟨stored, hs, hp⟩ := payload_written hB hd hu hsize
    simp only [Record.bytes?, hs]
    refine ⟨_, _, rfl, ?_⟩
    rw [List.flatten_append, flatten_namePieces]
    exact .modified hn hp

theorem ofList_written (hB : ∀ p, o.backend = some p → p.LosslessWithin (2 ^ 64))
    (hd : d.checksum = o.checksum) (hu : Unpacks d.backend o.backend) {records : List Record}
    (hname : ∀ r ∈ records, (Bytes.ofText r.name).length ≤ maxNameLength)
    (hsize : ∀ r ∈ records, r.size < 2 ^ 64) (s : WriteStats) :
    ∃ pieces t, ofList o s records = ⟨pieces, .ok t⟩ ∧
      d.RecordsWritten records pieces.flatten := by
  induction records generalizing s with
  | nil => exact ⟨[], s, rfl, .nil⟩
  | cons r records ih =>
    obtain ⟨pieces, t, hr, hw⟩ := ofRecord_written hB hd hu (hname r (List.mem_cons_self ..))
      (hsize r (List.mem_cons_self ..)) s
    obtain ⟨more, t', hrs, hws⟩ := ih (fun x hx => hname x (List.mem_cons_of_mem _ hx))
      (fun x hx => hsize x (List.mem_cons_of_mem _ hx)) t
    refine ⟨pieces ++ more, t', by rw [ofList, hr]; simp only [hrs], ?_⟩
    rw [List.flatten_append]
    exact .cons hw hws

/-! ## Files -/

/-- What comes after the head: a written form of the records for each decoder with the codec. -/
def BodyWritten (o : WriteOptions) (records : List Record) (body : Bytes) : Prop :=
  ∀ d : RecordDecoder, d.checksum = o.checksum → Unpacks d.backend o.backend →
    d.RecordsWritten records body

theorem bytes_ofRecords (o : WriteOptions) (records : List Record) : (ofRecords o records).bytes =
    (header o records).encode ++ (ofList o {} records).bytes := by
  rw [bytes, ofRecords, List.flatten_append]
  rfl

theorem ofRecords_written {records : List Record}
    (hB : ∀ p, o.backend = some p → p.LosslessWithin (2 ^ 64)) (h : Writable records) :
    ∃ stats body, (ofRecords o records).result = .ok stats ∧
      (ofRecords o records).bytes = (header o records).encode ++ body ∧
      BodyWritten o records body := by
  have hself : Unpacks o.backend o.backend := fun p hp => ⟨p, hp, rfl⟩
  obtain ⟨pieces, stats, hlist, -⟩ := ofList_written (d := ⟨o.backend, o.checksum, true⟩) hB rfl
    hself h.name_le h.size_lt {}
  refine ⟨stats, pieces.flatten, by rw [ofRecords, hlist], ?_, ?_⟩
  · rw [bytes_ofRecords, hlist]
    rfl
  · intro d hd hu
    obtain ⟨pieces', t, hlist', hw⟩ := ofList_written hB hd hu h.name_le h.size_lt {}
    rw [hlist] at hlist'
    cases hlist'
    exact hw

theorem write_written {records : List Record}
    (hB : ∀ p, o.backend = some p → p.LosslessWithin (2 ^ 64)) (h : Writable records) :
    ∃ (stats : WriteStats) (sink : Sink) (body : Bytes),
      (ofRecords o records).write Sink.unlimited = (.ok stats, sink) ∧
      sink.written = (header o records).encode ++ body ∧ BodyWritten o records body := by
  obtain ⟨stats, body, hok, hbytes, hbody⟩ := ofRecords_written hB h
  obtain ⟨sink, hwrite, hwritten⟩ := write_unlimited (ofRecords o records)
  exact ⟨stats, sink, body, hok ▸ hwrite, hwritten.trans hbytes, hbody⟩

variable {ro : ReadOptions} {records : List Record} {body : Bytes}

/-- Of a stream that begins with a written file, a reader hands out the file's records. -/
theorem yields_written {rest : Bytes} {s : Stream} {n : Nat} {e : Stream.Ending}
    (hro : ro.Provides o.backend) (hlen : records.length < 2 ^ 64)
    (hbody : BodyWritten o records body)
    (hs : s.Holds n ((header o records).encode ++ body ++ rest) e) :
    ∃ r r' t, Reader.start ro s = (.ok r, t) ∧ r.Yields records r' ∧ r'.remaining = 0 ∧
      r'.stream.Holds (n + ((header o records).encode ++ body).length) rest e := by
  obtain ⟨unpacking, hfor, hu⟩ := hro
  have hc : CodecFor ro (header o records).codec unpacking := Reader.backendFor_eq_ok.1 hfor
  have hsum : (header o records).hasChecksum = o.checksum := checksumFlag_flagsOf _ _
  rw [List.append_assoc] at hs
  obtain ⟨t, ht, hstart⟩ := Reader.start_written (header_written hlen) hc hs
  obtain ⟨r', hy, hr', ht'⟩ := Reader.Yields.of_written (r := ⟨header o records, ⟨unpacking,
    (header o records).hasChecksum, ro.verify⟩, (header o records).count, t⟩)
    (hbody _ hsum hu) (Nat.le_refl _) ht
  have hcount : (header o records).count = records.length := rfl
  refine ⟨_, r', t, hstart, hy, ?_, ?_⟩
  · dsimp only at hr'
    omega
  · rwa [List.length_append, ← Nat.add_assoc]

/-- The same of a stream that is just the file. -/
theorem yields_file (hro : ro.Provides o.backend) (hlen : records.length < 2 ^ 64)
    (hbody : BodyWritten o records body) : ∃ r r' t,
      Reader.start ro (.ofBytes ((header o records).encode ++ body)) = (.ok r, t) ∧
      r.Yields records r' ∧ r'.remaining = 0 ∧ ∃ n, r'.stream.Holds n [] .ended := by
  have hs : (Stream.ofBytes ((header o records).encode ++ body)).Holds 0
      ((header o records).encode ++ body ++ []) .ended := by
    rw [List.append_nil]
    exact Stream.holds_ofBytes _
  obtain ⟨r, r', t, hstart, hy, hdone, hrest⟩ := yields_written hro hlen hbody hs
  exact ⟨r, r', t, hstart, hy, hdone, _, hrest⟩

theorem readRecords_of_nodup (hro : ro.Provides o.backend) (hlen : records.length < 2 ^ 64)
    (hbody : BodyWritten o records body) (hnd : (records.map Record.name).Nodup) :
    (readRecords ro (.ofBytes ((header o records).encode ++ body))).1 = .ok records := by
  obtain ⟨r, r', t, hstart, hy, hdone, n, hrest⟩ := yields_file hro hlen hbody
  have hrecords := Reader.distinctRecords_complete hy hdone (fresh_of_nodup hnd)
  obtain ⟨t', hend⟩ := Reader.expectEnd_ended hrest
  rw [readRecords, hstart]
  simp only [hrecords, Reader.finish_done hdone, hend]

theorem readRecords_of_firstRepeat (hro : ro.Provides o.backend)
    (hlen : records.length < 2 ^ 64) (hbody : BodyWritten o records body) {name : String}
    (h : FirstRepeat (records.map Record.name) name) :
    (readRecords ro (.ofBytes ((header o records).encode ++ body))).1 =
      .error (.invalid (.duplicateRecord name)) := by
  obtain ⟨before, after, hnames, hbefore, hmem⟩ := h
  obtain ⟨r, r', t, hstart, hy, -, -⟩ := yields_file hro hlen hbody
  obtain ⟨xs, ys, hrecords, rfl, hys⟩ := List.map_eq_append_iff.1 hnames
  obtain ⟨x, zs, rfl, rfl, -⟩ := List.map_eq_cons_iff.1 hys
  rw [hrecords, ← List.singleton_append, ← List.append_assoc] at hy
  obtain ⟨r₁, hfirst, -⟩ := hy.of_append
  have hrepeated := Reader.distinctRecords_repeated hfirst (fresh_of_nodup hbefore)
    (.inr hmem)
  rw [readRecords, hstart]
  simp only [hrepeated]

end Encoding

/-! ## A codec of runs -/

/-- Of a payload that is one byte over and over, this codec keeps that byte. -/
def Backend.runs : Backend where
  id := 9
  worthwhile := longEnough
  compress
    | [] => .ok []
    | x :: xs => .ok (if xs = List.replicate xs.length x then [x] else x :: xs)
  decompress
    | [x], n => .ok (List.replicate n x)
    | b, _ => .ok b

theorem Backend.losslessWithin_runs (limit : Nat) : runs.LosslessWithin limit where
  compress_ok raw _ := by
    cases raw with
    | nil => exact ⟨_, rfl⟩
    | cons x xs => exact ⟨_, rfl⟩
  decompress_pack raw packed _ h := by
    obtain ⟨-, hpacked, hlt⟩ := pack_eq_some.1 h
    cases raw with
    | nil => cases hlt
    | cons x xs =>
      by_cases hrun : xs = List.replicate xs.length x
      · simp only [runs, if_pos hrun, Except.ok.injEq] at hpacked
        rw [← hpacked, List.length_cons, hrun, List.length_replicate]
        rfl
      · -- the payload was not shortened, so there is no packed form
        simp only [runs, if_neg hrun, Except.ok.injEq] at hpacked
        exact absurd (hpacked ▸ hlt) (Nat.lt_irrefl _)

/-! ## Written and read -/

/-- Reading undoes writing. Written records are handed out in their order, whatever follows the
file, and nothing beyond the file is taken; a whole file is read as its records unless a name comes
twice, and then the first name that does is told. -/
theorem written_records_read_back {o : WriteOptions} {ro : ReadOptions} {records : List Record}
    (hB : ∀ p, o.backend = some p → p.LosslessWithin (2 ^ 64)) (hro : ro.Provides o.backend)
    (h : Writable records) :
    ∃ (stats : WriteStats) (sink : Sink),
      (Encoding.ofRecords o records).write Sink.unlimited = (.ok stats, sink) ∧
      (∀ (s : Stream) (n : Nat) (rest : Bytes) (e : Stream.Ending),
        s.Holds n (sink.written ++ rest) e →
        ∃ r r' t, Reader.start ro s = (.ok r, t) ∧ r.Yields records r' ∧
          r.items = (records.map .ok, r') ∧ r'.remaining = 0 ∧
          r'.stream.Holds (n + sink.written.length) rest e) ∧
      ((records.map Record.name).Nodup →
        (readRecords ro (.ofBytes sink.written)).1 = .ok records) ∧
      ∀ name, FirstRepeat (records.map Record.name) name →
        (readRecords ro (.ofBytes sink.written)).1 = .error (.invalid (.duplicateRecord name)) := by
  obtain ⟨stats, sink, body, hwrite, hwritten, hbody⟩ := Encoding.write_written hB h
  refine ⟨stats, sink, hwrite, ?_, ?_, ?_⟩
  · intro s n rest e hs
    rw [hwritten] at hs ⊢
    obtain ⟨r, r', t, hstart, hy, hdone, hrest⟩ :=
      Encoding.yields_written hro h.length_lt hbody hs
    exact ⟨r, r', t, hstart, hy, hy.items hdone, hdone, hrest⟩
  · rw [hwritten]
    exact Encoding.readRecords_of_nodup hro h.length_lt hbody
  · rw [hwritten]
    exact fun name => Encoding.readRecords_of_firstRepeat hro h.length_lt hbody

theorem run_read_back :
    ∃ (stats : WriteStats) (sink : Sink),
      (Encoding.ofRecords ⟨some .runs, true⟩
        [.removed "a" (List.replicate 40 7), .added "b"]).write Sink.unlimited = (.ok stats, sink) ∧
      (readRecords ⟨true, some .runs⟩ (.ofBytes sink.written)).1 =
        .ok [.removed "a" (List.replicate 40 7), .added "b"] := by
  have hB : ∀ p, some Backend.runs = some p → p.LosslessWithin (2 ^ 64) :=
    fun p hp => Option.some.inj hp ▸ Backend.losslessWithin_runs (2 ^ 64)
  have hro : ReadOptions.Provides ⟨true, some .runs⟩ (some .runs) :=
    ReadOptions.provides_of_backend_eq rfl
  have h : Writable [.removed "a" (List.replicate 40 7), .added "b"] :=
    ⟨by decide, by decide, by decide⟩
  obtain ⟨stats, sink, hwrite, -, hread, -⟩ :=
    written_records_read_back (o := ⟨some .runs, true⟩) hB hro h
  exact ⟨stats, sink, hwrite, hread (by decide)⟩

end CollectionDelta
