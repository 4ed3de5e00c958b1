import CollectionDelta.Proofs.Format.FailedWrite

/-!
The kinds and names of a file, apart from its payloads.

* `Record.label`: what a record says before its payload, as the bytes that say it.
* `Outline.record`, `Outline.records`, `Outline.file`: the parts of a file as forms of labels,
  whatever the codec, the checksums and the contents.
* `Outline.prefixFree_file`: the bytes of a file decide its labels.
* `Outline.file_of_read`, `Outline.file_of_encoded`: a file that is read and one that is written
  without a failure have the labels of their records.
* `labels_of_written`: what is read of a written file has the kinds and names that were written.
-/

namespace CollectionDelta

open Decoder (Raw)

/-! ## Forms with another value -/

/-- Bytes that span a form, standing for a value of another sort. -/
def Form.as {α β : Type} (G : Form α) (b : β) : Form β := fun b' w => b' = b ∧ G.Spans w

theorem Form.PrefixFree.as {α β : Type} {G : Form α} (h : G.PrefixFree) (b : β) :
    (G.as b).PrefixFree := by
  rintro _ _ w w' rest rest' ⟨rfl, a, ha⟩ ⟨rfl, a', ha'⟩ heq
  obtain ⟨-, hw, hrest⟩ := h ha ha' heq
  exact ⟨rfl, hw, hrest⟩

/-- The code of the kind, and the bytes of the name. -/
abbrev Label := Bytes × Bytes

def Record.label (r : Record) : Label := ([r.kind.code], Bytes.ofText r.name)

theorem Record.label_eq_iff {r r' : Record} :
    r.label = r'.label ↔ r.kind = r'.kind ∧ r.name = r'.name := by
  constructor
  · intro h
    obtain ⟨hcode, hname⟩ := Prod.mk.inj h
    refine ⟨?_, Bytes.ofText_injective hname⟩
    have hkind := congrArg Kind.ofCode? (List.cons.inj hcode).1
    rw [Kind.ofCode?_code, Kind.ofCode?_code] at hkind
    exact Option.some.inj hkind
  · rintro ⟨hkind, hname⟩
    rw [Record.label, Record.label, hkind, hname]

namespace Outline

/-! ## The parts of a file -/

/-- The label of a record, and the payload if there is one. -/
def record (checksum : Bool) : Form Label :=
  (Raw 1).seq fun code => Extent.name.seq fun name =>
    (if code = [Kind.added.code] then Raw 0 else Extent.payload checksum).as (code, name)

def records (checksum : Bool) : Nat → Form (List Label)
  | 0 => (Raw 0).as []
  | n + 1 => (record checksum).seq fun x labels w =>
      ∃ xs, records checksum n xs w ∧ labels = x :: xs

/-- Magic, version and flags, of which the flags say what follows. -/
def file : Form (List Label) :=
  (Raw 6).seq fun b => (Raw (if Header.compressedFlag (b.getD 5 0) then 1 else 0)).seq fun _ =>
    Varint.Groups.seq fun count => records (Header.checksumFlag (b.getD 5 0)) count

theorem prefixFree_record (checksum : Bool) : (record checksum).PrefixFree := by
  refine (prefixFree_raw 1).seq fun code => Extent.prefixFree_name.seq fun name => ?_
  refine Form.PrefixFree.as ?_ _
  split
  · exact prefixFree_raw 0
  · exact Extent.prefixFree_payload checksum

theorem prefixFree_records (checksum : Bool) (n : Nat) : (records checksum n).PrefixFree := by
  induction n with
  | zero => exact (prefixFree_raw 0).as []
  | succ n ih =>
    refine (prefixFree_record checksum).seq fun x => ?_
    rintro _ _ w w' rest rest' ⟨xs, hxs, rfl⟩ ⟨xs', hxs', rfl⟩ h
    obtain ⟨rfl, hw, hrest⟩ := ih hxs hxs' h
    exact ⟨rfl, hw, hrest⟩

theorem prefixFree_file : file.PrefixFree :=
  (prefixFree_raw 6).seq fun _ => (prefixFree_raw _).seq fun _ =>
    Varint.prefixFree_groups.seq fun count => prefixFree_records _ count

/-! ## Putting parts together -/

variable {checksum : Bool} {r : Record} {rs : List Record} {w p body : Bytes}

theorem record_added (hr : r.kind = .added) (hw : Extent.name (Bytes.ofText r.name) w) :
    record checksum r.label ([r.kind.code] ++ w) := by
  refine ⟨[r.kind.code], [r.kind.code], w, rfl, ⟨rfl, rfl⟩, _, w, [], (List.append_nil w).symm, hw,
    rfl, ?_⟩
  rw [hr, if_pos rfl]
  exact spans_raw rfl

theorem record_kept (hr : r.kind ≠ .added) (hw : Extent.name (Bytes.ofText r.name) w)
    (hp : (Extent.payload checksum).Spans p) :
    record checksum r.label ([r.kind.code] ++ (w ++ p)) := by
  refine ⟨[r.kind.code], [r.kind.code], w ++ p, rfl, ⟨rfl, rfl⟩, _, w, p, rfl, hw, rfl, ?_⟩
  have hcode : [r.kind.code] ≠ [Kind.added.code] := by
    cases hk : r.kind with
    | added => exact absurd hk hr
    | removed => decide
    | modified => decide
  rwa [if_neg hcode]

theorem records_cons (hr : record checksum r.label w)
    (hrs : records checksum rs.length (rs.map Record.label) body) :
    records checksum (r :: rs).length ((r :: rs).map Record.label) (w ++ body) :=
  ⟨r.label, w, body, rfl, hr, rs.map Record.label, hrs, rfl⟩

theorem file_head {flags : UInt8} {codec count : Bytes} {n : Nat} {labels : List Label}
    (hcodec : codec.length = if Header.compressedFlag flags then 1 else 0)
    (hcount : Varint.Groups n count) (hbody : records (Header.checksumFlag flags) n labels body) :
    file labels (magic ++ [Header.version, flags] ++ codec ++ count ++ body) := by
  refine ⟨magic ++ [Header.version, flags], _, codec ++ (count ++ body), ?_, ⟨rfl, rfl⟩, codec,
    codec, count ++ body, rfl, ⟨rfl, hcodec⟩, n, count, body, rfl, hcount, hbody⟩
  simp only [List.append_assoc]

/-! ## Files that are read -/

theorem name_of_written {s : String} (h : NameWritten s w) : Extent.name (Bytes.ofText s) w := by
  obtain ⟨length, rfl, -, hlength⟩ := h
  exact ⟨_, length, Bytes.ofText s, rfl, hlength.groups, rfl, rfl⟩

theorem record_of_written {d : RecordDecoder} (h : d.RecordWritten r w) :
    record d.checksum r.label w := by
  cases h with
  | added hname => exact record_added (r := .added _) rfl (name_of_written hname)
  | removed hname hpayload =>
    rw [List.append_assoc]
    exact record_kept (r := .removed _ _) nofun (name_of_written hname)
      (Extent.spans_payloadWritten hpayload)
  | modified hname hpayload =>
    rw [List.append_assoc]
    exact record_kept (r := .modified _ _) nofun (name_of_written hname)
      (Extent.spans_payloadWritten hpayload)

theorem records_of_written {d : RecordDecoder} (h : d.RecordsWritten rs w) :
    records d.checksum rs.length (rs.map Record.label) w := by
  induction h with
  | nil => exact ⟨rfl, spans_raw rfl⟩
  | cons hr _ ih => exact records_cons (record_of_written hr) ih

theorem file_of_read {o : ReadOptions} (h : FileWritten o rs w) :
    file (rs.map Record.label) w := by
  obtain ⟨header, head, body, backend, rfl, hhead, -, hcount, hbody, -⟩ := h
  obtain ⟨count, rfl, -, hcodec, hwritten⟩ := hhead
  have hrecords := records_of_written hbody
  rw [hcount] at hrecords
  have hlen : header.codec.toList.length = if header.isCompressed then 1 else 0 := by
    rw [← hcodec]
    cases header.codec <;> rfl
  exact file_head hlen hwritten.groups hrecords

/-! ## Files that are written -/

theorem name_encoded (b : Bytes) : Extent.name b (Varint.encode b.length ++ b) :=
  ⟨b.length, _, b, rfl, Varint.groups_encode b.length, rfl, rfl⟩

theorem record_encoded {o : WriteOptions} {s t : WriteStats}
    (h : (Encoding.ofRecord o s r).result = .ok t) :
    record o.checksum r.label (Encoding.ofRecord o s r).bytes := by
  have hname := name_encoded (Bytes.ofText r.name)
  have hpieces := Encoding.flatten_namePieces r
  rw [Encoding.ofRecord] at h ⊢
  split at h
  · cases h
  · next hlength =>
    rw [if_neg hlength]
    cases hr : r.bytes? with
    | none =>
      rw [Encoding.bytes, hpieces]
      exact record_added (Encoding.kind_eq_added_iff.2 hr) hname
    | some raw =>
      have hkind : r.kind ≠ .added := by
        intro hadded
        rw [Encoding.kind_eq_added_iff.1 hadded] at hr
        cases hr
      simp only [hr] at h ⊢
      split at h
      · cases h
      · next stored _ =>
        rw [Encoding.bytes, List.flatten_append, hpieces, List.append_assoc]
        exact record_kept hkind hname (Encoding.spans_payloadPieces o.checksum raw stored)

theorem records_encoded {o : WriteOptions} {s t : WriteStats}
    (h : (Encoding.ofList o s rs).result = .ok t) :
    records o.checksum rs.length (rs.map Record.label) (Encoding.ofList o s rs).bytes := by
  induction rs generalizing s with
  | nil => exact ⟨rfl, spans_raw rfl⟩
  | cons r rs ih =>
    rw [Encoding.ofList] at h ⊢
    cases hr : Encoding.ofRecord o s r with
    | mk pieces result =>
      cases result with
      | error err =>
        rw [hr] at h
        cases h
      | ok s' =>
        rw [hr] at h
        have hrecord := record_encoded (o := o) (s := s) (r := r) (t := s') (by rw [hr])
        rw [hr] at hrecord
        have hall := records_cons hrecord (ih h)
        simpa [Encoding.bytes] using hall

theorem file_of_encoded {o : WriteOptions} {stats : WriteStats}
    (h : (Encoding.ofRecords o rs).result = .ok stats) :
    file (rs.map Record.label) (Encoding.ofRecords o rs).bytes := by
  have hbody := records_encoded h
  have hchecksum : (Encoding.header o rs).hasChecksum = o.checksum :=
    Encoding.checksumFlag_flagsOf _ _
  rw [← hchecksum] at hbody
  rw [Encoding.bytes_ofRecords, Encoding.encode_head]
  exact file_head (Encoding.length_codecByte _) (Varint.groups_encode _) hbody

end Outline

/-- What is read of a file that was written without a failure has the kinds and the names of what
was written, in their order, whatever the codecs and options on both sides. -/
theorem labels_of_written {o : WriteOptions} {ro : ReadOptions} {stats : WriteStats} {sink : Sink}
    {records read : List Record}
    (hwrite : (Encoding.ofRecords o records).write Sink.unlimited = (.ok stats, sink))
    (hread : (readRecords ro (.ofBytes sink.written)).1 = .ok read) :
    read.map Record.label = records.map Record.label := by
  obtain ⟨sink', hwhole, hwritten⟩ := Encoding.write_unlimited (Encoding.ofRecords o records)
  rw [hwhole] at hwrite
  obtain ⟨hresult, rfl⟩ := Prod.mk.inj hwrite
  obtain ⟨hfile, -⟩ := readRecords_sound (Stream.holds_ofBytes _) (Prod.ext hread rfl)
  have hencoded := Outline.file_of_encoded hresult
  rw [← hwritten] at hencoded
  have hsame : sink'.written ++ [] = sink'.written ++ [] := rfl
  exact (Outline.prefixFree_file (Outline.file_of_read hfile) hencoded hsame).1

end CollectionDelta
