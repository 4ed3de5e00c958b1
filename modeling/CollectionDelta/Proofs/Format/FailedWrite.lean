import CollectionDelta.Proofs.Format.Extent
import CollectionDelta.Proofs.Format.RoundTrip

/-!
A write that fails leaves nothing behind that is read as a file.

* `Encoding.Reaches`: the pieces of an encoding make up a whole form if it succeeds, and else lack
  some of one.
* `ofRecord_reaches`, `ofList_reaches`, `ofRecords_reaches`: records and files, by their extents; a
  name that is too long and a payload that cannot be packed are where they break off.
* `failed_write_unreadable`: what a writer has accepted by then, and that it is not read.
-/

namespace CollectionDelta

namespace Encoding

/-- An encoding is a form from the beginning, and to the end if and only if it succeeds. -/
def Reaches {α β : Type} (e : Encoding α) (G : Form β) : Prop :=
  ∃ u, G.Spans (e.bytes ++ u) ∧ (u = [] ↔ ∃ a, e.result = .ok a)

theorem reaches_of_ok {α β : Type} {e : Encoding α} {G : Form β} {a : α} (h : e.result = .ok a)
    (hG : G.Spans e.bytes) : e.Reaches G :=
  ⟨[], by rwa [List.append_nil], iff_of_true rfl ⟨a, h⟩⟩

theorem reaches_of_error {α β : Type} {e : Encoding α} {G : Form β} {err : FormatError}
    {u : Bytes} (h : e.result = .error err) (hu : u ≠ []) (hG : G.Spans (e.bytes ++ u)) :
    e.Reaches G := by
  refine ⟨u, hG, iff_of_false hu ?_⟩
  rintro ⟨a, ha⟩
  rw [h] at ha
  cases ha

variable {o : WriteOptions}

/-! ## Records -/

theorem spans_encodedName (b : Bytes) : Extent.name.Spans (Varint.encode b.length ++ b) :=
  Extent.spans_name (Varint.groups_encode b.length) rfl

theorem spans_payloadPieces (checksum : Bool) (raw : Bytes) (stored : Stored) :
    (Extent.payload checksum).Spans (payloadPieces checksum raw stored).flatten := by
  have hsum : (if checksum then [Bytes.ofNat 4 (adler32 raw)] else []).flatten.length =
      if checksum then 4 else 0 := by
    cases checksum <;> rfl
  have h := Extent.spans_payload stored.indicator (Varint.groups_encode raw.length)
    (Varint.groups_encode stored.bytes.length) rfl hsum
  simpa [payloadPieces] using h

/-- What is missing of a record of which only the kind and the name are written. -/
theorem exists_payload (checksum : Bool) : ∃ u, u ≠ [] ∧ (Extent.payload checksum).Spans u :=
  ⟨_, by simp [payloadPieces], spans_payloadPieces checksum [] ⟨rawIndicator, []⟩⟩

theorem exists_record (checksum : Bool) : ∃ u, u ≠ [] ∧ (Extent.record checksum).Spans u :=
  ⟨_, by simp, Extent.spans_added checksum (spans_encodedName [])⟩

theorem exists_records (checksum : Bool) (n : Nat) :
    ∃ u, (Extent.records checksum n).Spans u := by
  induction n with
  | zero => exact ⟨[], spans_raw rfl⟩
  | succ n ih =>
    obtain ⟨u, -, hu⟩ := exists_record checksum
    obtain ⟨us, hus⟩ := ih
    exact ⟨u ++ us, Extent.spans_records_cons hu hus⟩

theorem kind_eq_added_iff {r : Record} : r.kind = .added ↔ r.bytes? = none := by
  cases r <;> simp [Record.kind, Record.bytes?]

theorem ofRecord_reaches (o : WriteOptions) (s : WriteStats) (r : Record) :
    (ofRecord o s r).Reaches (Extent.record o.checksum) := by
  have hname := spans_encodedName (Bytes.ofText r.name)
  have hpieces := flatten_namePieces r
  rw [ofRecord]
  split
  · obtain ⟨u, hne, hu⟩ := exists_record o.checksum
    exact reaches_of_error rfl hne hu
  · cases hr : r.bytes? with
    | none =>
      refine reaches_of_ok rfl ?_
      rw [bytes, hpieces, kind_eq_added_iff.2 hr]
      exact Extent.spans_added o.checksum hname
    | some raw =>
      have hkind : r.kind ≠ .added := by
        intro h
        rw [kind_eq_added_iff.1 h] at hr
        cases hr
      dsimp only
      split
      · obtain ⟨u, hne, hu⟩ := exists_payload o.checksum
        refine reaches_of_error rfl hne ?_
        rw [bytes, hpieces, List.append_assoc]
        exact Extent.spans_kept r.kind hkind hname hu
      · next stored _ =>
        refine reaches_of_ok rfl ?_
        rw [bytes, List.flatten_append, hpieces, List.append_assoc]
        exact Extent.spans_kept r.kind hkind hname (spans_payloadPieces o.checksum raw stored)

theorem ofList_reaches (o : WriteOptions) (s : WriteStats) (records : List Record) :
    (ofList o s records).Reaches (Extent.records o.checksum records.length) := by
  induction records generalizing s with
  | nil => exact reaches_of_ok rfl (spans_raw rfl)
  | cons r records ih =>
    obtain ⟨u, hspan, hu⟩ := ofRecord_reaches o s r
    rw [ofList]
    generalize ofRecord o s r = e at hspan hu
    obtain ⟨pieces, result⟩ := e
    cases result with
    | error err =>
      -- the records that are not written are missing as well
      obtain ⟨us, hus⟩ := exists_records o.checksum records.length
      have hne : u ≠ [] := by
        intro hnil
        obtain ⟨t, ht⟩ := hu.1 hnil
        cases ht
      refine reaches_of_error rfl (u := u ++ us) (by simp [hne]) ?_
      rw [← List.append_assoc]
      exact Extent.spans_records_cons hspan hus
    | ok t =>
      obtain rfl : u = [] := hu.2 ⟨t, rfl⟩
      obtain ⟨us, hrest, hus⟩ := ih t
      rw [List.append_nil] at hspan
      refine ⟨us, ?_, hus⟩
      have hall := Extent.spans_records_cons hspan hrest
      simpa [bytes] using hall

/-! ## Files -/

/-- The codec's byte, where the flags say that there is one. -/
def codecByte (h : Header) : Bytes := if h.isCompressed then [h.codec.getD 0] else []

theorem length_codecByte (h : Header) :
    (codecByte h).length = if Header.compressedFlag h.flags then 1 else 0 := by
  rw [codecByte, Header.isCompressed]
  split <;> rfl

theorem encode_head (h : Header) : h.encode =
    magic ++ [Header.version, h.flags] ++ codecByte h ++ Varint.encode h.count := by
  rw [Header.encode, Header.pieces, codecByte]
  split <;> simp

theorem spans_encodedHead (h : Header) {body : Bytes}
    (hbody : (Extent.records h.hasChecksum h.count).Spans body) :
    Extent.file.Spans (h.encode ++ body) := by
  rw [encode_head]
  exact Extent.spans_head (length_codecByte h) (Varint.groups_encode h.count) hbody

theorem ofRecords_reaches (o : WriteOptions) (records : List Record) :
    (ofRecords o records).Reaches Extent.file := by
  obtain ⟨u, hspan, hu⟩ := ofList_reaches o {} records
  have hchecksum : (header o records).hasChecksum = o.checksum := checksumFlag_flagsOf _ _
  rw [← hchecksum] at hspan
  refine ⟨u, ?_, hu⟩
  rw [bytes_ofRecords, List.append_assoc]
  exact spans_encodedHead (header o records) hspan

end Encoding

/-- What a writer has accepted of a file when the writing of it fails is not read as one, whatever
the options and the codec of the reader and however the bytes are delivered. A writer that accepts
`n` bytes and then fails has accepted the first `n` bytes of a file or of a head, and makes the
writing fail if and only if that is not all. -/
theorem failed_write_unreadable {σ : Type} [Writer σ] {taken : σ → Bytes}
    (hk : Writer.Keeps taken) {w : σ} (hempty : taken w = []) (o : WriteOptions)
    (records : List Record) :
    (∀ err t, (Encoding.ofRecords o records).write w = (.error err, t) →
      ∀ (ro : ReadOptions) (s : Stream) (k : Nat) (e : Stream.Ending), s.Holds k (taken t) e →
        ∀ read, (readRecords ro s).1 ≠ .ok read) ∧
      ∀ n states, Writer.Limited taken states n → states w →
        taken ((Encoding.ofRecords o records).write w).2 =
            (Encoding.ofRecords o records).bytes.take n ∧
          (∀ stats, (Encoding.ofRecords o records).result = .ok stats →
            ((∃ err, ((Encoding.ofRecords o records).write w).1 = .error err) ↔
              n < (Encoding.ofRecords o records).bytes.length)) ∧
          ∀ header : Header, taken (header.write w).2 = header.encode.take n ∧
            ((∃ f, (header.write w).1 = .error f) ↔ n < header.encode.length) := by
  constructor
  · intro err t hwrite ro s k e hs read hread
    obtain ⟨p, x, hpx, htaken, hend⟩ := Encoding.write_wrote hk (Encoding.ofRecords o records) w
    obtain ⟨u, hspan, hu⟩ := Encoding.ofRecords_reaches o records
    rw [hwrite, hempty, List.nil_append] at htaken
    rw [htaken] at hs
    obtain ⟨hfile, -⟩ := readRecords_sound hs (Prod.ext hread rfl)
    -- the accepted bytes are a file, so nothing that would make up a longer one can be missing
    rw [← hpx, List.append_assoc] at hspan
    have hnil := Extent.prefixFree_file.eq_nil (Extent.spans_file hfile) hspan
    obtain ⟨rfl, hunil⟩ := List.append_eq_nil_iff.1 hnil
    obtain ⟨stats, hok⟩ := hu.1 hunil
    rcases hend with ⟨-, hresult⟩ | ⟨hne, -⟩
    · rw [hwrite, hok] at hresult
      cases hresult
    · exact hne rfl
  · intro n states hl hw
    obtain ⟨htaken, hfails⟩ := Encoding.write_limited hk hl hw hempty (Encoding.ofRecords o records)
    exact ⟨htaken, hfails, fun header => Writer.writeEach_limited hk hl hw hempty header.pieces⟩

/-- A disk that is full after 12 bytes, within the head of the second record. -/
theorem write_cut_short :
    let out := (Encoding.ofRecords {} [.added "b", .removed "a" [1, 2, 3]]).write (Sink.limited 12)
    (∃ err, out.1 = .error err) ∧
      out.2.written = [0x52, 0x53, 0x44, 0x46, 0x01, 0x01, 0x02, 0x00, 0x01, 0x62, 0x01, 0x01] ∧
      ∀ read, (readRecords {} (.ofBytes out.2.written)).1 ≠ .ok read := by
  intro out
  obtain ⟨hunread, hlimit⟩ := failed_write_unreadable Sink.keeps
    (show (Sink.limited 12).written = [] from rfl) {} [.added "b", .removed "a" [1, 2, 3]]
  obtain ⟨htaken, hfails, -⟩ :=
    hlimit 12 (Sink.HasLimit 12) (Sink.limited_hasLimit 12) (Sink.hasLimit_limited 12)
  have hlen : (Encoding.ofRecords {} [.added "b", .removed "a" [1, 2, 3]]).bytes.length = 23 := by
    decide +kernel
  have hbytes : (Encoding.ofRecords {} [.added "b", .removed "a" [1, 2, 3]]).bytes.take 12 =
      [0x52, 0x53, 0x44, 0x46, 0x01, 0x01, 0x02, 0x00, 0x01, 0x62, 0x01, 0x01] := by
    decide +kernel
  obtain ⟨err, herr⟩ := (hfails _ rfl).2 (by rw [hlen]; decide)
  exact ⟨⟨err, herr⟩, htaken.trans hbytes,
    hunread err out.2 (Prod.ext herr rfl) {} _ 0 .ended (Stream.holds_ofBytes _)⟩

end CollectionDelta
