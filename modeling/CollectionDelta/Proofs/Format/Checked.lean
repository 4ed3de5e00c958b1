import CollectionDelta.Proofs.Format.Outline
import Mathlib.Data.List.Forall2

/-!
What a checksum vouches for, whatever becomes of a payload in between.

* `Record.Matches`, `Record.Alike`: a record that was read, and the one that was written in its
  place, with checksums and with or without them.
* `RecordDecoder.PayloadWritten.frame`, `RecordDecoder.RecordWritten.parts`: what stands around a
  payload, whether it is packed or not.
* `payload_matches`, `record_matches`, `records_matches`: bytes that one side has written and the
  other has read, without any law of either codec; `records_related` goes from one record to all.
* `record_alike`, `alike_of_file`: the same for a file that may have no checksums.
* `read_matches_written`: a whole file with checksums. `read_matches_lossy` is a case where the
  bytes that are read are others.
-/

namespace CollectionDelta

/-- The record `x` was read where `r` was written: of the same kind and name, and with a payload of
the same length and checksum, which is the same payload if it was stored as it is. -/
structure Record.Matches (backend : Option Backend) (r x : Record) : Prop where
  kind_eq : x.kind = r.kind
  name_eq : x.name = r.name
  payload : ∀ raw, r.bytes? = some raw → ∃ got, x.bytes? = some got ∧ got.length = raw.length ∧
    adler32 got = adler32 raw ∧ ∀ stored, Encoding.store backend raw = .ok stored →
      stored.indicator = Encoding.rawIndicator → got = raw

/-- The record `x` is of the same kind, name and size as `r`. -/
structure Record.Alike (r x : Record) : Prop where
  kind_eq : x.kind = r.kind
  name_eq : x.name = r.name
  size_eq : x.size = r.size

namespace RecordDecoder

variable {d : RecordDecoder}

/-- Packed or not, a payload stands between its lengths and its checksum. -/
theorem PayloadWritten.frame {got p : Bytes} (h : d.PayloadWritten got p) :
    ∃ indicator length length' bytes sum, p = [indicator] ++ (length ++ (length' ++ (bytes ++ sum)))
      ∧ Varint.Written got.length length ∧ Varint.Written bytes.length length' ∧
      d.SumWritten got sum ∧ (indicator = Encoding.rawIndicator → bytes = got) := by
  cases h with
  | raw hl hl' hsum => exact ⟨0x00, _, _, _, _, by simp, hl, hl', hsum, fun _ => rfl⟩
  | packed hbackend hl hl' hraw hsum => exact ⟨0x01, _, _, _, _, by simp, hl, hl', hsum, nofun⟩

/-- A record with a payload is its kind, its name and the payload. -/
theorem RecordWritten.parts {x : Record} {got w : Bytes} (h : d.RecordWritten x w)
    (hx : x.bytes? = some got) : ∃ name payload, w = [x.kind.code] ++ (name ++ payload) ∧
      NameWritten x.name name ∧ d.PayloadWritten got payload := by
  cases h with
  | added => cases hx
  | removed hname hpayload => cases hx; exact ⟨_, _, List.append_assoc .., hname, hpayload⟩
  | modified hname hpayload => cases hx; exact ⟨_, _, List.append_assoc .., hname, hpayload⟩

end RecordDecoder

namespace Encoding

variable {o : WriteOptions} {d : RecordDecoder} {s t : WriteStats}

/-- A payload that is not packed is stored as it is. -/
theorem bytes_of_rawIndicator {backend : Option Backend} {raw : Bytes} {stored : Stored}
    (h : store backend raw = .ok stored) (hraw : stored.indicator = rawIndicator) :
    stored.bytes = raw := by
  cases backend with
  | none => cases h; rfl
  | some b =>
    cases hpack : b.pack raw with
    | error f => simp [store, hpack, Except.map] at h
    | ok packed =>
      simp only [store, hpack, Except.map, Except.ok.injEq] at h
      subst h
      cases packed with
      | none => rfl
      | some bytes => cases hraw

theorem bytes_ofRecord {r : Record} {raw : Bytes} (h : (ofRecord o s r).result = .ok t)
    (hr : r.bytes? = some raw) : ∃ stored, store o.backend raw = .ok stored ∧
      (ofRecord o s r).bytes = [r.kind.code] ++
        ((Varint.encode (Bytes.ofText r.name).length ++ Bytes.ofText r.name) ++
          (payloadPieces o.checksum raw stored).flatten) := by
  rw [ofRecord] at h ⊢
  split at h
  · cases h
  · next hlength =>
    rw [if_neg hlength]
    simp only [hr] at h ⊢
    cases hstore : store o.backend raw with
    | error f => simp [hstore] at h
    | ok stored =>
      refine ⟨stored, rfl, ?_⟩
      rw [bytes, List.flatten_append, flatten_namePieces, List.append_assoc]

theorem bytes_ofRecord_added {r : Record} (h : (ofRecord o s r).result = .ok t)
    (hr : r.bytes? = none) : (ofRecord o s r).bytes = [Kind.added.code] ++
      (Varint.encode (Bytes.ofText r.name).length ++ Bytes.ofText r.name) := by
  rw [ofRecord] at h ⊢
  split at h
  · cases h
  · next hlength =>
    rw [if_neg hlength]
    simp only [hr]
    rw [bytes, flatten_namePieces, kind_eq_added_iff.2 hr]

/-- A list is written if its first record and then the others are. -/
theorem ofList_cons_ok {r : Record} {rs : List Record}
    (h : (ofList o s (r :: rs)).result = .ok t) : ∃ u, (ofRecord o s r).result = .ok u ∧
      (ofList o u rs).result = .ok t ∧
      (ofList o s (r :: rs)).bytes = (ofRecord o s r).bytes ++ (ofList o u rs).bytes := by
  rw [ofList] at h ⊢
  generalize ofRecord o s r = first at h ⊢
  obtain ⟨pieces, result⟩ := first
  cases result with
  | error e => cases h
  | ok u => exact ⟨u, rfl, h, List.flatten_append ..⟩

/-- What is written of a record, whatever was written before it. -/
def recordBytes (o : WriteOptions) (r : Record) : Bytes := (ofRecord o {} r).bytes

theorem bytes_ofRecord_stats (o : WriteOptions) (s : WriteStats) (r : Record) :
    (ofRecord o s r).bytes = recordBytes o r := by
  rw [recordBytes, ofRecord, ofRecord]
  split
  · rfl
  · cases r.bytes? with
    | none => rfl
    | some raw =>
      dsimp only
      cases store o.backend raw with
      | error f => rfl
      | ok stored => rfl

theorem bytes_ofList {records : List Record} (h : (ofList o s records).result = .ok t) :
    (ofList o s records).bytes = records.flatMap (recordBytes o) := by
  induction records generalizing s with
  | nil => rfl
  | cons r records ih =>
    obtain ⟨u, -, hrest, hbytes⟩ := ofList_cons_ok h
    rw [hbytes, bytes_ofRecord_stats, ih hrest, List.flatMap_cons]

/-! ## Payloads and records -/

theorem flatten_payloadPieces (raw : Bytes) (stored : Stored) :
    (payloadPieces true raw stored).flatten = [stored.indicator] ++ (Varint.encode raw.length ++
      (Varint.encode stored.bytes.length ++ (stored.bytes ++ Bytes.ofNat 4 (adler32 raw)))) := by
  simp [payloadPieces]

/-- A payload is read with the length with which it was written. -/
theorem payload_length {checksum : Bool} {raw got : Bytes} {stored : Stored}
    (h : d.PayloadWritten got (payloadPieces checksum raw stored).flatten) :
    got.length = raw.length := by
  obtain ⟨indicator, length, length', bytes, sum, heq, hlength, -, -, -⟩ := h.frame
  rw [payloadPieces, List.flatten_append, List.flatten_cons, List.flatten_cons, List.append_assoc,
    List.append_assoc] at heq
  obtain ⟨-, hfields⟩ := List.cons.inj heq
  exact (Varint.prefixFree_groups (Varint.groups_encode _) hlength.groups hfields).1.symm

/-- The fields of a payload are where they were written, and the last one is the checksum of what
was read as well as of what was written. -/
theorem payload_matches {raw got : Bytes} {stored : Stored} (hd : d.checksum = true)
    (hv : d.verify = true) (h : d.PayloadWritten got (payloadPieces true raw stored).flatten) :
    got.length = raw.length ∧ adler32 got = adler32 raw ∧
      (stored.indicator = rawIndicator → got = stored.bytes) := by
  obtain ⟨indicator, length, length', bytes, sum, heq, hlength, hlength', hsum, hraw⟩ := h.frame
  rw [flatten_payloadPieces] at heq
  obtain ⟨rfl, hfields⟩ := List.cons.inj heq
  obtain ⟨hgot, -, hfields⟩ :=
    Varint.prefixFree_groups (Varint.groups_encode _) hlength.groups hfields
  obtain ⟨hbytes, -, hfields⟩ :=
    Varint.prefixFree_groups (Varint.groups_encode _) hlength'.groups hfields
  obtain ⟨rfl, rfl⟩ := List.append_inj hfields hbytes
  rw [RecordDecoder.SumWritten, if_pos hd] at hsum
  have hsame := congrArg Bytes.toNat (hsum.2 hv)
  rw [Bytes.toNat_ofNat (adler32_lt raw), Bytes.toNat_ofNat (adler32_lt got)] at hsame
  exact ⟨hgot.symm, hsame.symm, fun hi => (hraw hi).symm⟩

/-- A record is read where one of the same kind and name was written, and so is its payload. -/
theorem record_payload {r x : Record} {w rest rest' : Bytes} (hd : d.checksum = o.checksum)
    (hr : (ofRecord o s r).result = .ok t) (hx : d.RecordWritten x w)
    (h : w ++ rest = (ofRecord o s r).bytes ++ rest') :
    x.kind = r.kind ∧ x.name = r.name ∧ rest = rest' ∧ ∀ raw, r.bytes? = some raw →
      ∃ got stored, x.bytes? = some got ∧ store o.backend raw = .ok stored ∧
        d.PayloadWritten got (payloadPieces o.checksum raw stored).flatten := by
  have hread := Outline.record_of_written hx
  rw [hd] at hread
  obtain ⟨hlabel, rfl, hrest⟩ :=
    Outline.prefixFree_record o.checksum hread (Outline.record_encoded hr) h
  obtain ⟨hkind, hname⟩ := Record.label_eq_iff.1 hlabel
  refine ⟨hkind, hname, hrest, fun raw hraw => ?_⟩
  obtain ⟨got, hgot⟩ : ∃ got, x.bytes? = some got := by
    refine Option.ne_none_iff_exists'.1 fun hnone => ?_
    rw [kind_eq_added_iff.2 hnone] at hkind
    rw [kind_eq_added_iff.1 hkind.symm] at hraw
    cases hraw
  obtain ⟨stored, hstored, hbytes⟩ := bytes_ofRecord hr hraw
  obtain ⟨name, payload, hw, hn, hp⟩ := hx.parts hgot
  rw [hbytes, hkind] at hw
  obtain ⟨-, -, rfl⟩ := Extent.prefixFree_name (Outline.name_encoded _)
    (Outline.name_of_written hn) (List.append_cancel_left hw)
  exact ⟨got, stored, hgot, hstored, hp⟩

theorem record_matches {r x : Record} {w rest rest' : Bytes} (ho : o.checksum = true)
    (hd : d.checksum = true) (hv : d.verify = true) (hr : (ofRecord o s r).result = .ok t)
    (hx : d.RecordWritten x w) (h : w ++ rest = (ofRecord o s r).bytes ++ rest') :
    r.Matches o.backend x ∧ rest = rest' := by
  obtain ⟨hkind, hname, hrest, hpayload⟩ := record_payload (hd.trans ho.symm) hr hx h
  refine ⟨⟨hkind, hname, fun raw hraw => ?_⟩, hrest⟩
  obtain ⟨got, stored, hgot, hstored, hp⟩ := hpayload raw hraw
  rw [ho] at hp
  obtain ⟨hlength, hsum, hsame⟩ := payload_matches hd hv hp
  refine ⟨got, hgot, hlength, hsum, fun stored' hstored' hi => ?_⟩
  cases hstored.symm.trans hstored'
  exact (hsame hi).trans (bytes_of_rawIndicator hstored hi)

/-- With checksums or without, what is read has the sizes of what was written. -/
theorem record_alike {r x : Record} {w rest rest' : Bytes} (hd : d.checksum = o.checksum)
    (hr : (ofRecord o s r).result = .ok t) (hx : d.RecordWritten x w)
    (h : w ++ rest = (ofRecord o s r).bytes ++ rest') : r.Alike x ∧ rest = rest' := by
  obtain ⟨hkind, hname, hrest, hpayload⟩ := record_payload hd hr hx h
  refine ⟨⟨hkind, hname, ?_⟩, hrest⟩
  cases hraw : r.bytes? with
  | none =>
    have hnone : x.bytes? = none := by
      rw [← kind_eq_added_iff, hkind, kind_eq_added_iff, hraw]
    rw [Record.size, Record.size, hraw, hnone]
  | some raw =>
    obtain ⟨got, stored, hgot, -, hp⟩ := hpayload raw hraw
    rw [Record.size, Record.size, hraw, hgot]
    exact payload_length hp

/-! ## Files -/

/-- What holds of each record where it is read holds of all of them. -/
theorem records_related {R : Record → Record → Prop}
    (hrecord : ∀ {s t r x w rest rest'}, (ofRecord o s r).result = .ok t → d.RecordWritten x w →
      w ++ rest = (ofRecord o s r).bytes ++ rest' → R r x ∧ rest = rest')
    {records read : List Record} {w rest rest' : Bytes}
    (hr : (ofList o s records).result = .ok t) (hx : d.RecordsWritten read w)
    (hlen : read.length = records.length)
    (h : w ++ rest = (ofList o s records).bytes ++ rest') : List.Forall₂ R records read := by
  induction records generalizing s read w with
  | nil =>
    rw [List.length_eq_zero_iff.1 hlen]
    exact .nil
  | cons r records ih =>
    cases hx with
    | nil => cases hlen
    | cons hx hxs =>
      obtain ⟨s', hfirst, hrest, hbytes⟩ := ofList_cons_ok hr
      rw [hbytes, List.append_assoc, List.append_assoc] at h
      obtain ⟨hrelated, heq⟩ := hrecord hfirst hx h
      exact .cons hrelated (ih hrest hxs (Nat.succ.inj hlen) heq)

theorem records_matches {records read : List Record} {w rest rest' : Bytes}
    (ho : o.checksum = true) (hd : d.checksum = true) (hv : d.verify = true)
    (hr : (ofList o s records).result = .ok t) (hx : d.RecordsWritten read w)
    (hlen : read.length = records.length)
    (h : w ++ rest = (ofList o s records).bytes ++ rest') :
    List.Forall₂ (Record.Matches o.backend) records read :=
  records_related (record_matches ho hd hv) hr hx hlen h

/-- The body of a file that is read where another one was written, with checksums or without. -/
theorem alike_of_file {ro : ReadOptions} {records read : List Record} {stats : WriteStats}
    (hresult : (ofRecords o records).result = .ok stats)
    (hfile : FileWritten ro read (ofRecords o records).bytes) :
    List.Forall₂ Record.Alike records read := by
  have hlabels := (Outline.prefixFree_file (Outline.file_of_read hfile)
    (Outline.file_of_encoded hresult) (Eq.refl (_ ++ []))).1
  have hlen : read.length = records.length := by simpa using congrArg List.length hlabels
  obtain ⟨header, head, body, backend, hbytes, hhead, -, hcount, hbody, -⟩ := hfile
  have hcount64 : records.length < 2 ^ 64 := by
    obtain ⟨_, -, -, -, _, _, -, -, -, -, hlt⟩ := hhead
    omega
  rw [bytes_ofRecords] at hbytes
  obtain ⟨rfl, -, rfl⟩ :=
    Header.accepts_decode.prefixFree hhead (header_written hcount64) hbytes.symm
  exact records_related (record_alike (checksumFlag_flagsOf _ _)) hresult hbody hlen
    (Eq.refl (_ ++ []))

end Encoding

/-- Of a file that was written with checksums and is read with their verification, the records are
those that were written, one by one and apart from the bytes of packed payloads; of these, the
length and the checksum are those of what was written. Nothing is asked of the codecs of either
side. The checksum is that of RFC 1950. -/
theorem read_matches_written {σ : Type} [Writer σ] {taken : σ → Bytes} (hk : Writer.Keeps taken)
    {v v' : σ} (hempty : taken v = []) {o : WriteOptions} {ro : ReadOptions}
    {records read : List Record} {stats : WriteStats} {s : Stream} {n : Nat} {e : Stream.Ending}
    (ho : o.checksum = true) (hro : ro.verify = true)
    (hwrite : (Encoding.ofRecords o records).write v = (.ok stats, v'))
    (hs : s.Holds n (taken v') e) (hread : (readRecords ro s).1 = .ok read) :
    List.Forall₂ (Record.Matches o.backend) records read ∧
      ∀ b, adler32 b = 65536 * (Adler32.sumsOf b % 65521) + Adler32.sumOf b % 65521 := by
  refine ⟨?_, adler32_eq⟩
  obtain ⟨hresult, htaken⟩ := Encoding.taken_of_write_ok hk hempty hwrite
  rw [htaken] at hs
  obtain ⟨hfile, -⟩ := readRecords_sound hs (Prod.ext hread rfl)
  have hlabels := (Outline.prefixFree_file (Outline.file_of_read hfile)
    (Outline.file_of_encoded hresult) (Eq.refl (_ ++ []))).1
  have hlen : read.length = records.length := by simpa using congrArg List.length hlabels
  obtain ⟨header, head, body, backend, hbytes, hhead, -, hcount, hbody, -⟩ := hfile
  -- as many records as the head declares are no more than its number can say
  have hcount64 : records.length < 2 ^ 64 := by
    obtain ⟨_, -, -, -, _, _, -, -, -, -, hlt⟩ := hhead
    omega
  rw [Encoding.bytes_ofRecords] at hbytes
  obtain ⟨rfl, -, rfl⟩ :=
    Header.accepts_decode.prefixFree hhead (Encoding.header_written hcount64) hbytes.symm
  have hchecksum : (Encoding.header o records).hasChecksum = true :=
    (Encoding.checksumFlag_flagsOf _ _).trans ho
  exact Encoding.records_matches ho hchecksum hro hresult hbody hlen (Eq.refl (_ ++ []))

/-- The codec that unpacks is not the one that has packed, and makes of a payload another one with
its checksum. -/
theorem read_matches_lossy :
    let packing : Backend := ⟨9, fun _ => true, fun _ => .ok [7], fun b _ => .ok b⟩
    let unpacking : Backend := ⟨9, fun _ => true, .ok, fun _ _ => .ok [1, 0, 1]⟩
    let records : List Record := [.removed "a" [0, 2, 0], .added "b", .modified "c" [5]]
    ∃ (stats : WriteStats) (sink : Sink),
      (Encoding.ofRecords ⟨some packing, true⟩ records).write Sink.unlimited = (.ok stats, sink) ∧
      (readRecords ⟨true, some unpacking⟩ (.ofBytes sink.written)).1 =
        .ok [.removed "a" [1, 0, 1], .added "b", .modified "c" [5]] ∧
      List.Forall₂ (Record.Matches (some packing)) records
        [.removed "a" [1, 0, 1], .added "b", .modified "c" [5]] := by
  intro packing unpacking records
  obtain ⟨sink, hwrite, hwritten⟩ :=
    Encoding.write_unlimited (Encoding.ofRecords ⟨some packing, true⟩ records)
  have hread : (readRecords ⟨true, some unpacking⟩ (.ofBytes sink.written)).1 =
      .ok [.removed "a" [1, 0, 1], .added "b", .modified "c" [5]] := by
    rw [hwritten]
    decide +kernel
  exact ⟨_, sink, hwrite, hread, (read_matches_written Sink.keeps rfl rfl rfl hwrite
    (Stream.holds_ofBytes _) hread).1⟩

end CollectionDelta
