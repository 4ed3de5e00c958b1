import CollectionDelta.Format.Reader
import CollectionDelta.Proofs.Bytes
import CollectionDelta.Proofs.Checksum
import CollectionDelta.Proofs.Varint

/-!
The written forms of heads and records, field by field, and the decoders that accept them.

* `Header.Written`: magic, version, flags, codec and count; `accepts_decode`.
* `NameWritten`: a name after its length; `accepts_recordName`.
* `SumWritten`, `PayloadWritten`: a payload, stored as it is or packed, and its checksum;
  `accepts_payload`.
* `RecordWritten`: a whole record; `accepts_record`.
* `RecordsWritten`: records one after another.
-/

namespace CollectionDelta

open Decoder

/-! ## Decoders with a choice -/

theorem Decoder.accepts_if {α : Type} {p : Prop} [Decidable p] {d : Decoder α} {G : Form α}
    {err : FormatError} (h : d.Accepts G) :
    (if p then d else fail err).Accepts fun a w => p ∧ G a w := by
  split
  · next hp => exact h.congr fun a w => (and_iff_right hp).symm
  · next hp => exact (accepts_fail err).congr fun a w => by simp [hp]

theorem Decoder.accepts_unless {α : Type} {p : Prop} [Decidable p] {d : Decoder α} {G : Form α}
    {err : FormatError} (h : d.Accepts G) :
    (if p then fail err else d).Accepts fun a w => ¬ p ∧ G a w := by
  split
  · next hp => exact (accepts_fail err).congr fun a w => by simp [hp]
  · next hp => exact h.congr fun a w => (and_iff_right hp).symm

/-! ## The head -/

namespace Header

def Written : Form Header := fun h w =>
  ∃ count, w = [0x52, 0x53, 0x44, 0x46] ++ [0x01, h.flags] ++ h.codec.toList ++ count
    ∧ h.flags.toNat < 4 ∧ h.codec.isSome = h.isCompressed ∧ Varint.Written h.count count

theorem accepts_readMagic : readMagic.Accepts fun _ w => w = magic := by
  have hk : ∀ found : Bytes, (if found = magic then pure () else
      Decoder.invalid (.wrongMagic found) : Decoder Unit).Accepts
        fun _ w => found = magic ∧ w = [] := fun found =>
    (accepts_if (accepts_pure ())).congr fun a w => by simp
  refine (accepts_bind (accepts_exactly magic.length) hk).congr fun _ w => ?_
  constructor
  · rintro ⟨found, u, v, rfl, ⟨rfl, -⟩, rfl, rfl⟩
    exact List.append_nil _
  · rintro rfl
    exact ⟨magic, magic, [], rfl, ⟨rfl, rfl⟩, rfl, rfl⟩

theorem accepts_readFlags :
    readFlags.Accepts fun flags w => w = [0x01, flags] ∧ flags.toNat < 4 := by
  have hk : ∀ b : Bytes, (if b.getD 0 0 ≠ version then
        Decoder.fail (.unsupported (.version (b.getD 0 0)))
      else if flagsKnown (b.getD 1 0) then pure (b.getD 1 0)
      else Decoder.invalid (.unknownFlags (b.getD 1 0)) : Decoder UInt8).Accepts
        fun flags w => ¬ b.getD 0 0 ≠ version ∧ flagsKnown (b.getD 1 0) ∧
          flags = b.getD 1 0 ∧ w = [] := fun b =>
    accepts_unless (accepts_if (accepts_pure _))
  refine (accepts_bind (accepts_exactly 2) hk).congr fun flags w => ?_
  constructor
  · rintro ⟨b, u, v, rfl, ⟨rfl, hlen⟩, hversion, hknown, rfl, rfl⟩
    obtain ⟨x, y, rfl⟩ : ∃ x y, b = [x, y] := by
      match b, hlen with
      | [x, y], _ => exact ⟨x, y, rfl⟩
    have hx : x = version := Decidable.not_not.1 hversion
    rw [hx]
    exact ⟨rfl, of_decide_eq_true hknown⟩
  · rintro ⟨rfl, hflags⟩
    exact ⟨[0x01, flags], [0x01, flags], [], rfl, ⟨rfl, rfl⟩, by simp [version],
      decide_eq_true hflags, rfl, rfl⟩

theorem accepts_readCodec (flags : UInt8) :
    (readCodec flags).Accepts fun codec w =>
      w = codec.toList ∧ codec.isSome = compressedFlag flags := by
  unfold readCodec
  split
  · next h =>
    refine (accepts_bind accepts_byte fun id => accepts_pure (some id)).congr fun codec w => ?_
    rw [h]
    constructor
    · rintro ⟨id, u, v, rfl, rfl, rfl, rfl⟩
      exact ⟨rfl, rfl⟩
    · rintro ⟨rfl, hsome⟩
      obtain ⟨id, rfl⟩ := Option.isSome_iff_exists.1 hsome
      exact ⟨id, [id], [], rfl, rfl, rfl, rfl⟩
  · next h =>
    refine (accepts_pure none).congr fun codec w => ?_
    rw [Bool.eq_false_iff.2 h]
    constructor
    · rintro ⟨rfl, rfl⟩
      exact ⟨rfl, rfl⟩
    · rintro ⟨rfl, hnone⟩
      rw [Option.isSome_eq_false_iff, Option.isNone_iff_eq_none] at hnone
      subst hnone
      exact ⟨rfl, rfl⟩

theorem accepts_decode : decode.Accepts Written := by
  refine (accepts_bind accepts_readMagic fun _ => accepts_bind accepts_readFlags fun flags =>
    accepts_bind (accepts_readCodec flags) fun codec => accepts_bind Varint.accepts_varint
      fun count => accepts_pure (⟨flags, codec, count⟩ : Header)).congr fun h w => ?_
  constructor
  · rintro ⟨_, _, _, rfl, rfl, flags, _, _, rfl, ⟨rfl, hflags⟩, codec, _, _, rfl, ⟨rfl, hcodec⟩,
      count, u, _, rfl, hcount, rfl, rfl⟩
    exact ⟨u, by simp [magic], hflags, hcodec, hcount⟩
  · rintro ⟨u, rfl, hflags, hcodec, hcount⟩
    refine ⟨(), magic, _, by simp only [List.append_assoc]; rfl, rfl, h.flags, [0x01, h.flags], _,
      rfl, ⟨rfl, hflags⟩, h.codec, h.codec.toList, _, rfl, ⟨rfl, hcodec⟩, h.count, u, [], ?_,
      hcount, rfl, rfl⟩
    exact (List.append_nil u).symm

end Header

/-! ## Names -/

/-- A name of at most 65536 bytes after its length. -/
def NameWritten : Form String := fun name w =>
  ∃ length, w = length ++ Bytes.ofText name ∧ (Bytes.ofText name).length ≤ 65536
    ∧ Varint.Written (Bytes.ofText name).length length

namespace RecordDecoder

theorem accepts_recordName : recordName.Accepts NameWritten := by
  refine (accepts_bind Varint.accepts_varint fun n => accepts_unless (accepts_bind
    (H := fun b name w => Bytes.text? b = some name ∧ w = []) (accepts_gathered n)
    fun b => ?_)).congr fun name w => ?_
  · cases hb : Bytes.text? b with
    | some name => exact (accepts_pure name).congr fun a w => by simp [eq_comm]
    | none => exact (accepts_invalid _).congr fun a w => by simp
  constructor
  · rintro ⟨n, u, _, rfl, hn, hle, b, _, _, rfl, ⟨rfl, rfl⟩, htext, rfl⟩
    have hname := Bytes.ofText_of_text? htext
    subst hname
    exact ⟨u, by rw [List.append_nil], Nat.le_of_not_lt hle, hn⟩
  · rintro ⟨u, rfl, hle, hn⟩
    refine ⟨_, u, _, rfl, hn, Nat.not_lt.2 hle, Bytes.ofText name, _, [], ?_, ⟨rfl, rfl⟩,
      Bytes.text?_ofText name, rfl⟩
    exact (List.append_nil _).symm

/-! ## Payloads -/

/-- What follows a payload: nothing, or four bytes that are its checksum where that is verified. -/
def SumWritten (d : RecordDecoder) : Form Bytes := fun raw w =>
  if d.checksum then w.length = 4 ∧ (d.verify = true → w = Bytes.ofNat 4 (adler32 raw)) else w = []

inductive PayloadWritten (d : RecordDecoder) : Form Bytes
  | raw {raw length length' sum : Bytes} (hl : Varint.Written raw.length length)
      (hl' : Varint.Written raw.length length') (hsum : d.SumWritten raw sum) :
      PayloadWritten d raw ([0x00] ++ length ++ length' ++ raw ++ sum)
  | packed {raw stored length length' sum : Bytes} {backend : Backend}
      (hbackend : d.backend = some backend) (hl : Varint.Written raw.length length)
      (hl' : Varint.Written stored.length length')
      (hraw : backend.decompress stored raw.length = .ok raw) (hsum : d.SumWritten raw sum) :
      PayloadWritten d raw ([0x01] ++ length ++ length' ++ stored ++ sum)

theorem unpack_eq_ok {d : RecordDecoder} {name : String} {indicator : UInt8} {n : Nat}
    {stored raw : Bytes} : d.unpack name indicator n stored = .ok raw ↔
      raw.length = n ∧ ((indicator = 0 ∧ stored = raw) ∨ (indicator = 1 ∧
        ∃ backend, d.backend = some backend ∧ backend.decompress stored n = .ok raw)) := by
  unfold unpack Encoding.rawIndicator Encoding.packedIndicator
  constructor
  · intro h
    split at h
    · next hi =>
      split at h
      · next hn => cases h; exact ⟨hn, .inl ⟨hi, rfl⟩⟩
      · cases h
    · split at h
      · next hi =>
        split at h
        · cases h
        · next backend hb =>
          split at h
          · cases h
          · next hraw =>
            split at h
            · next hn => cases h; exact ⟨hn, .inr ⟨hi, backend, hb, hraw⟩⟩
            · cases h
      · cases h
  · rintro ⟨rfl, ⟨rfl, rfl⟩ | ⟨rfl, backend, hb, hraw⟩⟩
    · simp
    · simp [hb, hraw]

theorem accepts_checked (d : RecordDecoder) (name : String) (raw : Bytes) :
    (d.checked name raw).Accepts fun b w => b = raw ∧ d.SumWritten raw w := by
  unfold checked SumWritten
  split
  · have hk : ∀ sum : Bytes, (if d.verify ∧ adler32 raw ≠ sum.toNat then
        Decoder.fail (.checksumMismatch name sum.toNat (adler32 raw))
        else pure raw : Decoder Bytes).Accepts
          fun b w => ¬ (d.verify ∧ adler32 raw ≠ sum.toNat) ∧ b = raw ∧ w = [] := fun sum =>
      accepts_unless (accepts_pure raw)
    have hsum : ∀ sum : Bytes, sum.length = 4 →
        (adler32 raw = sum.toNat ↔ sum = Bytes.ofNat 4 (adler32 raw)) := by
      intro sum hlen
      constructor
      · intro h
        rw [h, Bytes.ofNat_toNat hlen]
      · intro h
        rw [h, Bytes.toNat_ofNat (adler32_lt raw)]
    refine (accepts_bind (accepts_exactly 4) hk).congr fun b w => ?_
    constructor
    · rintro ⟨sum, _, _, rfl, ⟨rfl, hlen⟩, hver, rfl, rfl⟩
      rw [List.append_nil]
      refine ⟨rfl, hlen, fun hv => (hsum sum hlen).1 ?_⟩
      exact Decidable.not_not.1 fun hne => hver ⟨hv, hne⟩
    · rintro ⟨rfl, hlen, hver⟩
      refine ⟨w, w, [], (List.append_nil w).symm, ⟨rfl, hlen⟩, ?_, rfl, rfl⟩
      rintro ⟨hv, hne⟩
      exact hne ((hsum w hlen).2 (hver hv))
  · exact accepts_pure raw

theorem accepts_payload (d : RecordDecoder) (name : String) :
    (d.payload name).Accepts d.PayloadWritten := by
  refine (accepts_bind accepts_byte fun indicator => accepts_bind Varint.accepts_varint fun n =>
    accepts_bind Varint.accepts_varint fun m => accepts_bind (accepts_gathered m) fun stored =>
    accepts_bind (accepts_ofExcept (d.unpack name indicator n stored)) fun raw =>
    accepts_checked d name raw).congr fun raw w => ?_
  constructor
  · rintro ⟨indicator, _, _, rfl, rfl, n, length, _, rfl, hl, m, length', _, rfl, hl', stored, _, _,
      rfl, ⟨rfl, rfl⟩, raw', _, sum, rfl, ⟨hunpack, rfl⟩, rfl, hsum⟩
    obtain ⟨rfl, ⟨rfl, rfl⟩ | ⟨rfl, backend, hb, hraw⟩⟩ := unpack_eq_ok.1 hunpack
    · simpa using PayloadWritten.raw hl hl' hsum
    · simpa using PayloadWritten.packed hb hl hl' hraw hsum
  · rintro (⟨hl, hl', hsum⟩ | ⟨hb, hl, hl', hraw, hsum⟩)
    · refine ⟨0x00, [0x00], _, ?_, rfl, _, _, _, rfl, hl, _, _, _, rfl, hl', raw, raw, _, rfl,
        ⟨rfl, rfl⟩, raw, [], _, rfl, ⟨unpack_eq_ok.2 ⟨rfl, .inl ⟨rfl, rfl⟩⟩, rfl⟩, rfl, hsum⟩
      simp only [List.append_assoc, List.nil_append]
    · refine ⟨0x01, [0x01], _, ?_, rfl, _, _, _, rfl, hl, _, _, _, rfl, hl', _, _, _, rfl,
        ⟨rfl, rfl⟩, raw, [], _, rfl, ⟨unpack_eq_ok.2 ⟨rfl, .inr ⟨rfl, _, hb, hraw⟩⟩, rfl⟩, rfl,
        hsum⟩
      simp only [List.append_assoc, List.nil_append]

/-! ## Records -/

inductive RecordWritten (d : RecordDecoder) : Form Record
  | added {name : String} {w : Bytes} (hname : NameWritten name w) :
      RecordWritten d (.added name) ([0x00] ++ w)
  | removed {name : String} {bytes w payload : Bytes} (hname : NameWritten name w)
      (hpayload : d.PayloadWritten bytes payload) :
      RecordWritten d (.removed name bytes) ([0x01] ++ w ++ payload)
  | modified {name : String} {bytes w payload : Bytes} (hname : NameWritten name w)
      (hpayload : d.PayloadWritten bytes payload) :
      RecordWritten d (.modified name bytes) ([0x02] ++ w ++ payload)

/-- The kind's code decides what follows it. -/
theorem recordWritten_cons_iff {d : RecordDecoder} {r : Record} {code : UInt8} {w : Bytes} :
    d.RecordWritten r (code :: w) ↔
      (code = 0x00 ∧ ∃ name, r = .added name ∧ NameWritten name w) ∨
      (code = 0x01 ∧ ∃ name bytes u payload, r = .removed name bytes ∧ w = u ++ payload ∧
        NameWritten name u ∧ d.PayloadWritten bytes payload) ∨
      (code = 0x02 ∧ ∃ name bytes u payload, r = .modified name bytes ∧ w = u ++ payload ∧
        NameWritten name u ∧ d.PayloadWritten bytes payload) := by
  constructor
  · generalize hx : code :: w = x
    intro h
    cases h with
    | added hname =>
      obtain ⟨rfl, rfl⟩ := List.cons.inj hx
      exact .inl ⟨rfl, _, rfl, hname⟩
    | removed hname hpayload =>
      obtain ⟨rfl, rfl⟩ := List.cons.inj hx
      exact .inr (.inl ⟨rfl, _, _, _, _, rfl, rfl, hname, hpayload⟩)
    | modified hname hpayload =>
      obtain ⟨rfl, rfl⟩ := List.cons.inj hx
      exact .inr (.inr ⟨rfl, _, _, _, _, rfl, rfl, hname, hpayload⟩)
  · rintro (⟨rfl, name, rfl, hname⟩ | ⟨rfl, name, bytes, u, payload, rfl, rfl, hname, hpayload⟩ |
      ⟨rfl, name, bytes, u, payload, rfl, rfl, hname, hpayload⟩)
    · exact .added hname
    · exact .removed hname hpayload
    · exact .modified hname hpayload

/-- A name and then a payload, of which a record is made. -/
private theorem accepts_nameAndPayload (d : RecordDecoder) (make : String → Bytes → Record) :
    (do
      let name ← recordName
      let bytes ← d.payload name
      return make name bytes : Decoder Record).Accepts fun r w =>
        ∃ name bytes u payload, r = make name bytes ∧ w = u ++ payload ∧
          NameWritten name u ∧ d.PayloadWritten bytes payload := by
  refine (accepts_bind accepts_recordName fun name => accepts_bind (accepts_payload d name)
    fun bytes => accepts_pure (make name bytes)).congr fun r w => ?_
  constructor
  · rintro ⟨name, u, _, rfl, hname, bytes, payload, _, rfl, hpayload, rfl, rfl⟩
    exact ⟨name, bytes, u, payload, rfl, by rw [List.append_nil], hname, hpayload⟩
  · rintro ⟨name, bytes, u, payload, rfl, rfl, hname, hpayload⟩
    exact ⟨name, u, payload, rfl, hname, bytes, payload, [], (List.append_nil _).symm, hpayload,
      rfl, rfl⟩

theorem accepts_recordOfCode (d : RecordDecoder) (code : UInt8) :
    (d.recordOfCode code).Accepts fun r w => d.RecordWritten r (code :: w) := by
  unfold recordOfCode
  split
  · next hcode =>
    refine (accepts_invalid _).congr fun r w => ?_
    rw [recordWritten_cons_iff]
    constructor
    · exact False.elim
    · rintro (⟨rfl, -⟩ | ⟨rfl, -⟩ | ⟨rfl, -⟩) <;> cases hcode
  · next kind hcode =>
    rw [← Kind.code_of_ofCode? hcode]
    cases kind with
    | added =>
      refine (accepts_bind accepts_recordName fun name => accepts_pure (Record.added name)).congr
        fun r w => ?_
      rw [recordWritten_cons_iff]
      constructor
      · rintro ⟨name, u, _, rfl, hname, rfl, rfl⟩
        rw [List.append_nil]
        exact .inl ⟨rfl, name, rfl, hname⟩
      · rintro (⟨-, name, rfl, hname⟩ | ⟨h, -⟩ | ⟨h, -⟩)
        · exact ⟨name, w, [], (List.append_nil w).symm, hname, rfl, rfl⟩
        · cases h
        · cases h
    | removed =>
      refine (accepts_nameAndPayload d .removed).congr fun r w => ?_
      rw [recordWritten_cons_iff]
      constructor
      · exact fun h => .inr (.inl ⟨rfl, h⟩)
      · rintro (⟨h, -⟩ | ⟨-, h⟩ | ⟨h, -⟩)
        · cases h
        · exact h
        · cases h
    | modified =>
      refine (accepts_nameAndPayload d .modified).congr fun r w => ?_
      rw [recordWritten_cons_iff]
      constructor
      · exact fun h => .inr (.inr ⟨rfl, h⟩)
      · rintro (⟨h, -⟩ | ⟨h, -⟩ | ⟨-, h⟩)
        · cases h
        · cases h
        · exact h

theorem accepts_record (d : RecordDecoder) : d.record.Accepts d.RecordWritten := by
  refine (accepts_bind accepts_byte (accepts_recordOfCode d)).congr fun r w => ?_
  constructor
  · rintro ⟨code, _, v, rfl, rfl, hw⟩
    exact hw
  · intro hw
    obtain ⟨code, v, rfl⟩ : ∃ code v, w = code :: v := by
      cases hw <;> exact ⟨_, _, rfl⟩
    exact ⟨code, [code], v, rfl, rfl, hw⟩

/-- The records of a file, one after another. -/
inductive RecordsWritten (d : RecordDecoder) : Form (List Record)
  | nil : RecordsWritten d [] []
  | cons {r : Record} {rs : List Record} {w ws : Bytes} (hr : d.RecordWritten r w)
      (hrs : RecordsWritten d rs ws) : RecordsWritten d (r :: rs) (w ++ ws)

end RecordDecoder
end CollectionDelta
