import CollectionDelta.Proofs.Format.Checked
import CollectionDelta.Proofs.Summary
import Mathlib.Algebra.Order.BigOperators.Group.List
import Mathlib.Algebra.Order.Group.Nat

/-!
What a writing says about itself, and how long its file is.

* `Encoding.stored?`, `storedSize`, `isPacked`: how the payload of a record is stored.
* `Encoding.Storable`, `result_ofList_iff`: the records that can be written, and the statistics of
  writing them.
* `Encoding.recordLength`, `length_recordBytes`: how many bytes a record takes.
* `Encoding.recordLength_le`: a record does not take more of them with a codec than without.
* `statistics_exact`: the statistics and the length of a whole file.
-/

namespace CollectionDelta
namespace Encoding

variable {o : WriteOptions} {s t : WriteStats} {r : Record} {records : List Record}
  {backend : Option Backend} {raw : Bytes} {stored : Stored}

/-! ## Stored payloads -/

/-- The stored form of the payload of a record that has one. -/
def stored? (backend : Option Backend) (r : Record) : Option Stored :=
  r.bytes?.bind fun raw => (store backend raw).toOption

def storedSize (backend : Option Backend) (r : Record) : Nat :=
  ((stored? backend r).map fun stored => stored.bytes.length).getD 0

def isPacked (backend : Option Backend) (r : Record) : Bool :=
  (stored? backend r).any fun stored => stored.indicator = packedIndicator

theorem stored_of_none (hr : r.bytes? = none) : stored? backend r = none := by
  rw [stored?, hr, Option.bind_none]

theorem stored_of_some (hr : r.bytes? = some raw) (h : store backend raw = .ok stored) :
    stored? backend r = some stored := by
  rw [stored?, hr, Option.bind_some, h]
  rfl

/-- A payload is packed into fewer bytes, or is stored as it is. -/
theorem store_cases (h : store backend raw = .ok stored) :
    (stored.indicator = packedIndicator ∧ stored.bytes.length < raw.length) ∨
      stored = ⟨rawIndicator, raw⟩ := by
  cases backend with
  | none =>
    cases h
    exact .inr rfl
  | some b =>
    rw [store] at h
    cases hpack : b.pack raw with
    | error f => simp [hpack, Except.map] at h
    | ok packed? =>
      simp only [hpack, Except.map, Except.ok.injEq] at h
      subst h
      cases packed? with
      | none => exact .inr rfl
      | some packed => exact .inl ⟨rfl, (Backend.pack_eq_some.1 hpack).2.2⟩

/-! ## What can be written -/

/-- The name is not too long, and no codec fails on the payload. -/
structure Storable (o : WriteOptions) (r : Record) : Prop where
  name_le : (Bytes.ofText r.name).length ≤ maxNameLength
  store_ok : ∀ raw, r.bytes? = some raw → ∃ stored, store o.backend raw = .ok stored

/-- Without a codec, a record whose name is not too long can be written. -/
theorem Storable.uncompressed {checksum : Bool} (h : Storable o r) : Storable ⟨none, checksum⟩ r :=
  ⟨h.name_le, fun _ _ => ⟨_, rfl⟩⟩

/-- Each record counts once, and with its own payload. -/
theorem result_ofRecord_iff : (ofRecord o s r).result = .ok t ↔ Storable o r ∧
    t = ⟨s.records + 1, s.payloadBytes + r.size, s.storedBytes + storedSize o.backend r,
      s.compressedPayloads + if isPacked o.backend r then 1 else 0⟩ := by
  by_cases hname : (Bytes.ofText r.name).length ≤ maxNameLength
  · rw [ofRecord, if_neg (Nat.not_lt.2 hname)]
    cases hr : r.bytes? with
    | none =>
      have hstorable : Storable o r := by
        refine ⟨hname, fun raw hraw => ?_⟩
        cases hr.symm.trans hraw
      simp [hstorable, Record.size, hr, storedSize, isPacked, stored_of_none hr, eq_comm]
    | some raw =>
      cases hstore : store o.backend raw with
      | error f =>
        constructor
        · intro h
          simp [hstore] at h
        · rintro ⟨h, -⟩
          obtain ⟨stored, hok⟩ := h.store_ok raw hr
          cases hstore.symm.trans hok
      | ok stored =>
        have hstorable : Storable o r := by
          refine ⟨hname, fun raw' hr' => ?_⟩
          cases hr.symm.trans hr'
          exact ⟨stored, hstore⟩
        simp [hstorable, hstore, addPayload, Record.size, hr, storedSize, isPacked,
          stored_of_some hr hstore, eq_comm]
  · rw [ofRecord, if_pos (Nat.not_le.1 hname)]
    constructor
    · intro h
      cases h
    · rintro ⟨h, -⟩
      exact absurd h.name_le hname

theorem result_ofList_cons_iff : (ofList o s (r :: records)).result = .ok t ↔
    ∃ u, (ofRecord o s r).result = .ok u ∧ (ofList o u records).result = .ok t := by
  constructor
  · intro h
    obtain ⟨u, hr, hrest, -⟩ := ofList_cons_ok h
    exact ⟨u, hr, hrest⟩
  · rintro ⟨u, hr, hrest⟩
    rw [ofList]
    generalize ofRecord o s r = first at hr ⊢
    obtain ⟨pieces, result⟩ := first
    cases hr
    exact hrest

theorem result_ofList_iff : (ofList o s records).result = .ok t ↔
    (∀ r ∈ records, Storable o r) ∧ t = ⟨s.records + records.length,
      s.payloadBytes + (records.map Record.size).sum,
      s.storedBytes + (records.map (storedSize o.backend)).sum,
      s.compressedPayloads + records.countP (isPacked o.backend)⟩ := by
  induction records generalizing s with
  | nil => simp [ofList, eq_comm]
  | cons r records ih =>
    simp only [result_ofList_cons_iff, result_ofRecord_iff, ih, List.forall_mem_cons,
      List.length_cons, List.map_cons, List.sum_cons, List.countP_cons]
    constructor
    · rintro ⟨u, ⟨hr, rfl⟩, hrest, rfl⟩
      refine ⟨⟨hr, hrest⟩, ?_⟩
      simp only [WriteStats.mk.injEq]
      omega
    · rintro ⟨⟨hr, hrest⟩, rfl⟩
      refine ⟨_, ⟨hr, rfl⟩, hrest, ?_⟩
      simp only [WriteStats.mk.injEq]
      omega

/-! ## Sums over records -/

/-- A payload does not take more bytes in its stored form, and fewer if it is packed. -/
theorem Storable.stored_le (h : Storable o r) :
    storedSize o.backend r + (if isPacked o.backend r then 1 else 0) ≤ r.size ∧
      (isPacked o.backend r = false → storedSize o.backend r = r.size) := by
  cases hr : r.bytes? with
  | none => simp [storedSize, isPacked, stored_of_none hr, Record.size, hr]
  | some raw =>
    obtain ⟨stored, hstore⟩ := h.store_ok raw hr
    rw [storedSize, isPacked, stored_of_some hr hstore, Record.size, hr]
    rcases store_cases hstore with ⟨hpacked, hlt⟩ | rfl
    · simpa [hpacked] using Nat.add_one_le_iff.2 hlt
    · simp [rawIndicator, packedIndicator]

theorem sum_stored_le (h : ∀ r ∈ records, Storable o r) :
    (records.map (storedSize o.backend)).sum + records.countP (isPacked o.backend) ≤
        (records.map Record.size).sum ∧
      (records.countP (isPacked o.backend) = 0 →
        (records.map (storedSize o.backend)).sum = (records.map Record.size).sum) := by
  induction records with
  | nil => simp
  | cons r records ih =>
    rw [List.forall_mem_cons] at h
    obtain ⟨hle, heq⟩ := h.1.stored_le
    obtain ⟨hles, heqs⟩ := ih h.2
    rw [List.map_cons, List.map_cons, List.sum_cons, List.sum_cons, List.countP_cons]
    cases hpacked : isPacked o.backend r with
    | false =>
      have heq := heq hpacked
      simp only [Bool.false_eq_true, if_false]
      omega
    | true =>
      rw [if_pos hpacked] at hle
      simp only [if_true]
      omega

/-! ## The lengths of records -/

/-- One byte for the kind, the name after its length, and for a payload the indicator, both lengths,
the stored bytes and the checksum if there are any. -/
def recordLength (o : WriteOptions) (r : Record) : Nat :=
  1 + (Varint.encode (Bytes.ofText r.name).length).length + (Bytes.ofText r.name).length +
    if r.kind = .added then 0
    else 1 + ((Varint.encode r.size).length + (Varint.encode (storedSize o.backend r)).length) +
      storedSize o.backend r + if o.checksum then 4 else 0

theorem length_recordBytes (h : Storable o r) : (recordBytes o r).length = recordLength o r := by
  have hok : (ofRecord o {} r).result = .ok _ := result_ofRecord_iff.2 ⟨h, rfl⟩
  cases hr : r.bytes? with
  | none =>
    rw [recordBytes, bytes_ofRecord_added hok hr, recordLength, if_pos (kind_eq_added_iff.2 hr)]
    simp only [List.length_append, List.length_singleton]
    omega
  | some raw =>
    have hkind : r.kind ≠ .added := by
      intro hadded
      cases hr.symm.trans (kind_eq_added_iff.1 hadded)
    obtain ⟨stored, hstore, hbytes⟩ := bytes_ofRecord hok hr
    have hsum : (if o.checksum then [Bytes.ofNat 4 (adler32 raw)] else []).flatten.length =
        if o.checksum then 4 else 0 := by
      split <;> simp [Bytes.length_ofNat]
    rw [recordBytes, hbytes, recordLength, if_neg hkind, storedSize, stored_of_some hr hstore,
      Record.size, hr]
    simp only [payloadPieces, List.flatten_append, List.flatten_cons, List.flatten_nil,
      List.length_append, List.length_singleton, List.length_nil, Option.map_some,
      Option.getD_some, hsum]
    omega

/-- A smaller stored form takes a length that is not longer. -/
theorem recordLength_le (h : Storable o r) : recordLength o r ≤ recordLength ⟨none, o.checksum⟩ r := by
  have huncompressed : storedSize none r = r.size := by
    cases hr : r.bytes? with
    | none => rw [storedSize, stored_of_none hr, Record.size, hr]; rfl
    | some raw => rw [storedSize, stored_of_some hr rfl, Record.size, hr]; rfl
  have hle : storedSize o.backend r ≤ r.size := Nat.le_of_add_right_le h.stored_le.1
  have hvarint := Varint.length_encode_mono hle
  rw [recordLength, recordLength, huncompressed]
  dsimp only
  split
  · exact Nat.le_refl _
  · omega

theorem sum_recordLength_le (h : ∀ r ∈ records, Storable o r) :
    (records.map (recordLength o)).sum ≤ (records.map (recordLength ⟨none, o.checksum⟩)).sum :=
  List.sum_le_sum fun r hr => recordLength_le (h r hr)

/-! ## The lengths of files -/

theorem length_encode_header (o : WriteOptions) (records : List Record) :
    (header o records).encode.length =
      6 + (if o.backend.isSome then 1 else 0) + (Varint.encode records.length).length := by
  have hcodec := length_codecByte (header o records)
  rw [show (header o records).flags = Header.flagsOf o.checksum o.backend.isSome from rfl,
    compressedFlag_flagsOf] at hcodec
  rw [encode_head, List.length_append, List.length_append, hcodec]
  rfl

theorem length_ofRecords (h : ∀ r ∈ records, Storable o r) :
    (ofRecords o records).bytes.length =
      (header o records).encode.length + (records.map (recordLength o)).sum := by
  have hok : (ofList o {} records).result = .ok _ := result_ofList_iff.2 ⟨h, rfl⟩
  rw [bytes_ofRecords, bytes_ofList hok, List.length_append, List.length_flatMap,
    List.map_congr_left fun r hr => length_recordBytes (h r hr)]

/-- A codec costs one byte, its number in the head. -/
theorem length_ofRecords_le (h : ∀ r ∈ records, Storable o r) : (ofRecords o records).bytes.length ≤
    (ofRecords ⟨none, o.checksum⟩ records).bytes.length + 1 := by
  have hshorter := sum_recordLength_le h
  rw [length_ofRecords h, length_ofRecords fun r hr => (h r hr).uncompressed, length_encode_header,
    length_encode_header]
  simp only [Option.isSome_none, Bool.false_eq_true, if_false]
  split <;> omega

theorem length_bytes_le (h : (ofRecords o records).result = .ok t) :
    (ofRecords o records).bytes.length ≤
      (ofRecords ⟨none, o.checksum⟩ records).bytes.length + 1 :=
  length_ofRecords_le (result_ofList_iff.1 h).1

end Encoding

open Encoding (storedSize recordLength)

/-- What a writing that succeeds says of itself is so: the number of records, the bytes that they
keep and the bytes that are stored of these. Every packed payload is shorter, so that as many bytes
are stored as are kept if and only if none is packed. The length of the file is that of its head and
of its records, and at most one more than that of the file that the records have without a codec. -/
theorem statistics_exact {σ : Type} [Writer σ] {taken : σ → Bytes} (hk : Writer.Keeps taken)
    {v v' : σ} (hempty : taken v = []) {o : WriteOptions} {records : List Record}
    {stats : WriteStats} (hwrite : (Encoding.ofRecords o records).write v = (.ok stats, v')) :
    stats.records = records.length ∧
    stats.payloadBytes = (Summary.ofRecords records).retainedBytes ∧
    stats.storedBytes = (records.map (storedSize o.backend)).sum ∧
    stats.storedBytes + stats.compressedPayloads ≤ stats.payloadBytes ∧
    (stats.storedBytes = stats.payloadBytes ↔ stats.compressedPayloads = 0) ∧
    (taken v').length =
      (Encoding.header o records).encode.length + (records.map (recordLength o)).sum ∧
    ∃ stats' sink, (Encoding.ofRecords ⟨none, o.checksum⟩ records).write Sink.unlimited =
        (.ok stats', sink) ∧ (taken v').length ≤ sink.written.length + 1 := by
  obtain ⟨hresult, htaken⟩ := Encoding.taken_of_write_ok hk hempty hwrite
  obtain ⟨hstorable, rfl⟩ := Encoding.result_ofList_iff.1 hresult
  obtain ⟨hle, heq⟩ := Encoding.sum_stored_le hstorable
  have huncompressed : ∀ r ∈ records, Encoding.Storable ⟨none, o.checksum⟩ r :=
    fun r hr => (hstorable r hr).uncompressed
  obtain ⟨sink, hsink, hwritten⟩ :=
    Encoding.write_unlimited (Encoding.ofRecords ⟨none, o.checksum⟩ records)
  have hok : (Encoding.ofRecords ⟨none, o.checksum⟩ records).result = .ok _ :=
    Encoding.result_ofList_iff.2 ⟨huncompressed, rfl⟩
  rw [Summary.ofRecords_eq, htaken]
  refine ⟨Nat.zero_add _, Nat.zero_add _, Nat.zero_add _, ?_, ⟨fun h => ?_, fun h => ?_⟩,
    Encoding.length_ofRecords hstorable, _, sink, hok ▸ hsink, ?_⟩
  · dsimp only
    omega
  · dsimp only at h ⊢
    omega
  · dsimp only at h ⊢
    rw [heq (by omega)]
  · rw [hwritten]
    exact Encoding.length_ofRecords_le hstorable

/-- Forty bytes are stored as one, and five others as they are. -/
theorem run_statistics :
    let records : List Record :=
      [.removed "a" (List.replicate 40 7), .added "b", .modified "c" [1, 2, 3, 4, 5]]
    ∃ (stats : WriteStats) (sink : Sink),
      (Encoding.ofRecords ⟨some .runs, true⟩ records).write Sink.unlimited = (.ok stats, sink) ∧
      stats.records = 3 ∧ stats.payloadBytes = 45 ∧ stats.storedBytes = 6 ∧
      stats.storedBytes + stats.compressedPayloads ≤ 45 ∧ stats.compressedPayloads ≠ 0 ∧
      sink.written.length = 37 := by
  intro records
  obtain ⟨sink, hwrite, -⟩ :=
    Encoding.write_unlimited (Encoding.ofRecords ⟨some .runs, true⟩ records)
  obtain ⟨hrecords, hpayload, hstored, hle, hpacked, hlength, -⟩ :=
    statistics_exact Sink.keeps rfl hwrite
  have hfewer : (records.map (storedSize (some .runs))).sum = 6 := by decide
  have hkept : (Summary.ofRecords records).retainedBytes = 45 := by decide
  have hbytes : (Encoding.header ⟨some .runs, true⟩ records).encode.length +
      (records.map (recordLength ⟨some .runs, true⟩)).sum = 37 := by decide +kernel
  rw [hfewer] at hstored
  rw [hkept] at hpayload
  rw [hpayload] at hle hpacked
  exact ⟨_, sink, hwrite, hrecords, hpayload, hstored, hle,
    fun h => absurd (hstored.symm.trans (hpacked.2 h)) (by decide), hlength.trans hbytes⟩

end CollectionDelta
