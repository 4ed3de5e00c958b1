import CollectionDelta.Proofs.Checksum.Corruption
import CollectionDelta.Proofs.Format.Checked
import CollectionDelta.Proofs.Format.Verified

/-!
Files with one corrupted payload.

* `Record.withBytes`: the same record with another payload.
* `Encoding.payloadFront`: what is written of a record up to its payload; `bare_written` says that
  it depends on the payload only by its length.
* `Encoding.fileSplit_replaced`: a written file in which one payload and its checksum are replaced
  by others of the same lengths is split into its records as before.
* `corrupted_payload_refused`: such a file is refused for that record if the two are corrupted, and
  read without verification.
-/

namespace CollectionDelta

def Record.withBytes : Record → Bytes → Record
  | .added name, _ => .added name
  | .removed name _, bytes => .removed name bytes
  | .modified name _, bytes => .modified name bytes

namespace Record

variable {r : Record} {raw : Bytes}

theorem name_withBytes (r : Record) (b : Bytes) : (r.withBytes b).name = r.name := by
  cases r <;> rfl

theorem kind_withBytes (r : Record) (b : Bytes) : (r.withBytes b).kind = r.kind := by
  cases r <;> rfl

theorem bytes_withBytes (hr : r.bytes? = some raw) (b : Bytes) :
    (r.withBytes b).bytes? = some b := by
  cases r with
  | added => cases hr
  | removed => rfl
  | modified => rfl

end Record

namespace Encoding

variable {r : Record} {raw : Bytes} {before after : List Record}

/-! ## A record and its payload -/

/-- The bytes of a record in front of a payload of length `n` that is stored as it is: the kind, the
name, the indicator and the two lengths. -/
def payloadFront (r : Record) (n : Nat) : Bytes :=
  (namePieces r).flatten ++ ([rawIndicator] ++ (Varint.encode n ++ Varint.encode n))

theorem payloadFront_withBytes (r : Record) (b : Bytes) (n : Nat) :
    payloadFront (r.withBytes b) n = payloadFront r n := by
  rw [payloadFront, payloadFront, namePieces, namePieces, Record.name_withBytes,
    Record.kind_withBytes]

theorem recordBytes_raw (hname : (Bytes.ofText r.name).length ≤ maxNameLength)
    (hr : r.bytes? = some raw) : recordBytes ⟨none, true⟩ r =
      payloadFront r raw.length ++ (raw ++ Bytes.ofNat 4 (adler32 raw)) := by
  rw [recordBytes, bytes, ofRecord, if_neg (Nat.not_lt.2 hname)]
  simp only [hr, store, List.flatten_append, flatten_payloadPieces, payloadFront, List.append_assoc]

theorem bare_written {d : RecordDecoder} (hname : (Bytes.ofText r.name).length ≤ maxNameLength)
    (hraw : raw.length < 2 ^ 64) (hr : r.bytes? = some raw) :
    d.bare.RecordWritten r (payloadFront r raw.length ++ raw) := by
  have hpayload : d.bare.PayloadWritten raw _ :=
    .raw (Varint.written_encode hraw) (Varint.written_encode hraw) rfl
  rw [payloadFront, flatten_namePieces]
  cases r with
  | added => cases hr
  | removed name b =>
    cases hr
    simpa [rawIndicator, Record.kind, Kind.code, Record.name] using
      RecordDecoder.RecordWritten.removed (name_written hname) hpayload
  | modified name b =>
    cases hr
    simpa [rawIndicator, Record.kind, Kind.code, Record.name] using
      RecordDecoder.RecordWritten.modified (name_written hname) hpayload

theorem recordBytes_written (hname : (Bytes.ofText r.name).length ≤ maxNameLength)
    (hsize : r.size < 2 ^ 64) : RecordDecoder.RecordWritten ⟨none, true, true⟩ r
      (recordBytes ⟨none, true⟩ r) := by
  obtain ⟨pieces, t, hr, hw⟩ := ofRecord_written (o := ⟨none, true⟩) (d := ⟨none, true, true⟩) nofun
    rfl nofun hname hsize {}
  rw [recordBytes, hr]
  exact hw

/-! ## A file and one of its payloads -/

/-- A record as a file without compression has it. -/
def written (r : Record) : WrittenRecord := ⟨r, recordBytes ⟨none, true⟩ r⟩

theorem sound_written (hname : (Bytes.ofText r.name).length ≤ maxNameLength)
    (hsize : r.size < 2 ^ 64) : (written r).Sound := (recordBytes_written hname hsize).sound

/-- The file of `before`, `r` and `after` up to the payload of `r`, of length `n`. -/
def fileFront (before : List Record) (r : Record) (n : Nat) (after : List Record) : Bytes :=
  (header ⟨none, true⟩ (before ++ r :: after)).encode ++
    (before.flatMap (recordBytes ⟨none, true⟩) ++ payloadFront r n)

/-- The payload and its checksum stand between what is in front of them and the records after. -/
theorem bytes_around (hname : (Bytes.ofText r.name).length ≤ maxNameLength)
    (hr : r.bytes? = some raw) {stats : WriteStats}
    (hresult : (ofRecords ⟨none, true⟩ (before ++ r :: after)).result = .ok stats) :
    (ofRecords ⟨none, true⟩ (before ++ r :: after)).bytes =
      fileFront before r raw.length after ++ (raw ++ Bytes.ofNat 4 (adler32 raw)) ++
        after.flatMap (recordBytes ⟨none, true⟩) := by
  rw [bytes_ofRecords, bytes_ofList hresult, List.flatMap_append, List.flatMap_cons,
    recordBytes_raw hname hr, fileFront]
  simp only [List.append_assoc]

/-- Another payload and other bytes after it, of the same lengths, leave all other records in their
places. -/
theorem fileSplit_replaced (backend : Option Backend) {raw' sum' : Bytes}
    (h : Writable (before ++ r :: after)) (hnd : ((before ++ r :: after).map Record.name).Nodup)
    (hr : r.bytes? = some raw) (hraw : raw'.length = raw.length) (hsum : sum'.length = 4) :
    FileSplit ⟨false, backend⟩ (before.map written ++
        ⟨r.withBytes raw', payloadFront r raw.length ++ (raw' ++ sum')⟩ :: after.map written)
      (fileFront before r raw.length after ++ (raw' ++ sum') ++
        after.flatMap (recordBytes ⟨none, true⟩)) := by
  have hother : ∀ y ∈ before ++ r :: after, RecordDecoder.RecordWritten ⟨none, true, false⟩ y
      (recordBytes ⟨none, true⟩ y) :=
    fun y hy => (recordBytes_written (h.name_le y hy) (h.size_lt y hy)).unverified
  have hmem : r ∈ before ++ r :: after := List.mem_append_right _ (List.mem_cons_self ..)
  have hlt : raw'.length < 2 ^ 64 := by
    have hsize := h.size_lt r hmem
    rw [Record.size, hr] at hsize
    exact hraw ▸ hsize
  have hreplaced : RecordDecoder.RecordWritten ⟨none, true, false⟩ (r.withBytes raw')
      (payloadFront r raw.length ++ (raw' ++ sum')) := by
    have hname := h.name_le r hmem
    rw [← Record.name_withBytes r raw'] at hname
    have hbare := bare_written (d := ⟨none, true, false⟩) hname hlt (Record.bytes_withBytes hr raw')
    rw [payloadFront_withBytes, hraw] at hbare
    exact (RecordDecoder.recordWritten_iff (Record.bytes_withBytes hr raw')).2
      ⟨_, sum', (List.append_assoc ..).symm, hbare, hsum,
        fun hverify => absurd hverify Bool.false_ne_true⟩
  refine ⟨header ⟨none, true⟩ (before ++ r :: after), _, none, ?_, header_written h.length_lt,
    .none, ?_, ?_, ?_⟩
  · simp [fileFront, List.flatMap_append, List.flatMap_map, written]
  · simp [header]
  · intro y hy
    rw [List.mem_append, List.mem_cons, List.mem_map, List.mem_map] at hy
    rcases hy with ⟨z, hz, rfl⟩ | rfl | ⟨z, hz, rfl⟩
    · exact hother z (List.mem_append_left _ hz)
    · exact hreplaced
    · exact hother z (List.mem_append_right _ (List.mem_cons_of_mem _ hz))
  · simpa [written, Record.name_withBytes, Function.comp_def] using hnd

end Encoding

open Encoding (fileFront recordBytes)

/-- Of a file with checksums and without compression, any payload that is corrupted in one place,
or of which the checksum is another one, makes the reading fail for its record, with the checksum
that is stored and the one that the payload has as it is found. Without verification the file is
read, and every other record is as it was. The checksum is that of RFC 1950. -/
theorem corrupted_payload_refused {σ : Type} [Writer σ] {taken : σ → Bytes}
    (hk : Writer.Keeps taken) {v v' : σ} (hempty : taken v = []) {before after : List Record}
    {r : Record} {raw : Bytes} {stats : WriteStats} (h : Writable (before ++ r :: after))
    (hnd : ((before ++ r :: after).map Record.name).Nodup) (hr : r.bytes? = some raw)
    (hwrite : (Encoding.ofRecords ⟨none, true⟩ (before ++ r :: after)).write v =
      (.ok stats, v')) :
    let file (payload sum : Bytes) : Bytes := fileFront before r raw.length after ++
      (payload ++ sum) ++ after.flatMap (recordBytes ⟨none, true⟩)
    taken v' = file raw (Bytes.ofNat 4 (adler32 raw)) ∧
    (∀ raw' sum', Corrupted raw (Bytes.ofNat 4 (adler32 raw)) raw' sum' → ∀ backend,
      (readRecords ⟨true, backend⟩ (.ofBytes (file raw' sum'))).1 =
          .error (.checksumMismatch r.name (Bytes.toNat sum') (adler32 raw')) ∧
        (readRecords ⟨false, backend⟩ (.ofBytes (file raw' sum'))).1 =
          .ok (before ++ r.withBytes raw' :: after)) ∧
    ∀ b, adler32 b = 65536 * (Adler32.sumsOf b % 65521) + Adler32.sumOf b % 65521 := by
  intro file
  obtain ⟨hresult, htaken⟩ := Encoding.taken_of_write_ok hk hempty hwrite
  have hname := h.name_le r (List.mem_append_right _ (List.mem_cons_self ..))
  refine ⟨htaken.trans (Encoding.bytes_around hname hr hresult), ?_, adler32_eq⟩
  intro raw' sum' hcorrupted backend
  obtain ⟨hraw, hsum⟩ := hcorrupted.length_eq
  rw [Bytes.length_ofNat] at hsum
  have hsplit := Encoding.fileSplit_replaced backend h hnd hr hraw hsum
  constructor
  · have hstored : WrittenRecord.stored ⟨r.withBytes raw',
        Encoding.payloadFront r raw.length ++ (raw' ++ sum')⟩ = sum' :=
      WrittenRecord.stored_eq (List.append_assoc ..).symm hsum
    have hsound : ∀ y ∈ before.map Encoding.written, y.Sound := by
      intro y hy
      obtain ⟨z, hz, rfl⟩ := List.mem_map.1 hy
      have hz := List.mem_append_left (r :: after) hz
      exact Encoding.sound_written (h.name_le z hz) (h.size_lt z hz)
    obtain ⟨-, hmismatch⟩ := hsplit.mismatch rfl hsound (Record.bytes_withBytes hr raw')
      (hstored.symm ▸ hcorrupted.sum_ne) (Stream.holds_ofBytes _)
    rw [hmismatch, hstored, Record.name_withBytes]
  · rw [(readRecords_eq_ok_iff _ _ _).2 hsplit.written]
    simp [Encoding.written, Function.comp_def]

/-- The first and the last byte of a payload have changed places. -/
theorem swapped_payload_refused :
    let before : List Record := [.modified "c" [5]]
    let after : List Record := [.added "b"]
    let b := fileFront before (.removed "a" [1, 2, 3]) 3 after ++
      ([3, 2, 1] ++ Bytes.ofNat 4 (adler32 [1, 2, 3])) ++ after.flatMap (recordBytes ⟨none, true⟩)
    (readRecords ⟨true, none⟩ (.ofBytes b)).1 =
        .error (.checksumMismatch "a" 0x000D0007 0x00110007) ∧
      (readRecords ⟨false, none⟩ (.ofBytes b)).1 =
        .ok [.modified "c" [5], .removed "a" [3, 2, 1], .added "b"] := by
  intro before after b
  let r : Record := .removed "a" [1, 2, 3]
  obtain ⟨sink, hwrite, -⟩ :=
    Encoding.write_unlimited (Encoding.ofRecords ⟨none, true⟩ (before ++ r :: after))
  have hwritable : Writable (before ++ r :: after) := ⟨by decide, by decide, by decide⟩
  have hcorrupted : Corrupted [1, 2, 3] (Bytes.ofNat 4 (adler32 [1, 2, 3])) [3, 2, 1]
      (Bytes.ofNat 4 (adler32 [1, 2, 3])) :=
    .swap (show [1, 2, 3] = [] ++ 1 :: ([2] ++ 3 :: []) from rfl) (by decide) (by decide)
  obtain ⟨hverified, hunverified⟩ := (corrupted_payload_refused Sink.keeps rfl hwritable (by decide)
    (r := r) rfl hwrite).2.1 _ _ hcorrupted none
  have hstored : Bytes.toNat (Bytes.ofNat 4 (adler32 [1, 2, 3])) = 0x000D0007 := by decide
  have hfound : adler32 [3, 2, 1] = 0x00110007 := by decide
  rw [hstored, hfound] at hverified
  exact ⟨hverified, hunverified⟩

end CollectionDelta
