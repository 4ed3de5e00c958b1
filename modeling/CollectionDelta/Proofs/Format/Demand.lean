import CollectionDelta.Proofs.Format.Finish
import CollectionDelta.Proofs.Format.Unpacked
import CollectionDelta.Proofs.Listing

/-!
What counts and lengths that are not trusted can ask for.

* `Decoder.Takes`: a decoder that succeeds has used up a number of bytes; `takes_decode` and
  `takes_record` say it of heads and records.
* `RecordDecoder.declared`: the length that a record declares; `Reader.declared_of_next` says that
  its payload has that length.
* `Reader.records`, `Reader.askAll_takes`: the records among some answers, and what they have used
  up.
* `demand_backed`: the records that come of a file are at most half as many as its bytes, and no
  built-in codec makes a payload of more than was declared.
-/

namespace CollectionDelta

/-! ## Bytes that are used up -/

theorem Varint.readOnto_weight_lt {value n : Nat} {s t : Stream}
    (h : readOnto value s = (.ok n, t)) : t.weight < s.weight := by
  fun_induction readOnto value s with
  | case1 => cases h
  | case2 => cases h
  | case3 value s b u hu =>
    cases h
    exact Stream.exactly_weight_lt (by decide) hu
  | case4 value s b u hu x _ _ ih =>
    exact Nat.lt_trans (ih h) (Stream.exactly_weight_lt (by decide) hu)

namespace Decoder

variable {α β : Type}

/-- A decoder that succeeds has used up `n` bytes at least. -/
def Takes (n : Nat) (d : Decoder α) : Prop :=
  ∀ ⦃s t : Stream⦄ ⦃a : α⦄, d s = (.ok a, t) → t.weight + n ≤ s.weight

theorem Shrinks.takes {d : Decoder α} (h : d.Shrinks) : d.Takes 0 := by
  intro s t a hd
  have hle := h s
  rwa [hd] at hle

theorem bind_eq_ok {d : Decoder α} {k : α → Decoder β} {s t : Stream} {b : β} :
    (d >>= k) s = (.ok b, t) ↔ ∃ a u, d s = (.ok a, u) ∧ k a u = (.ok b, t) := by
  rw [bind_apply]
  rcases d s with ⟨e | a, u⟩
  · simp
  · simp

theorem takes_bind {d : Decoder α} {k : α → Decoder β} {m n : Nat} (hd : d.Takes m)
    (hk : ∀ a, (k a).Takes n) : (d >>= k).Takes (m + n) := by
  intro s t b h
  obtain ⟨a, u, ha, hb⟩ := bind_eq_ok.1 h
  have hm := hd ha
  have hn := hk a hb
  omega

theorem takes_exactly (n : Nat) : (exactly n).Takes n := by
  intro s t b h
  unfold exactly ofRead Stream.exactly at h
  rcases hg : s.gather n with ⟨f | got, u⟩
  · simp [hg] at h
  · rw [hg] at h
    have hle := Stream.gather_weight_add_le hg
    by_cases hshort : got.length < n
    · simp [hshort] at h
    · simp only [hshort, if_false, Prod.mk.injEq, Except.ok.injEq] at h
      obtain ⟨rfl, rfl⟩ := h
      omega

theorem takes_byte : byte.Takes 1 := takes_bind (takes_exactly 1) fun _ => (shrinks_pure _).takes

theorem takes_varint : varint.Takes 1 := by
  intro s t n h
  unfold varint ofRead at h
  rcases hr : Varint.read s with ⟨f | m, u⟩
  · simp [hr] at h
  · rw [hr] at h
    cases h
    exact Varint.readOnto_weight_lt hr

end Decoder

open Decoder

namespace Header

theorem takes_readMagic : readMagic.Takes 4 := by
  refine takes_bind (n := 0) (takes_exactly 4) fun found => Shrinks.takes ?_
  split
  · exact shrinks_pure _
  · exact shrinks_invalid _

theorem takes_readFlags : readFlags.Takes 2 := by
  refine takes_bind (n := 0) (takes_exactly 2) fun b => Shrinks.takes ?_
  dsimp only
  split
  · exact shrinks_fail _
  · split
    · exact shrinks_pure _
    · exact shrinks_invalid _

theorem shrinks_readCodec (flags : UInt8) : (readCodec flags).Shrinks := by
  unfold readCodec
  split
  · exact shrinks_bind shrinks_byte fun _ => shrinks_pure _
  · exact shrinks_pure _

/-- A head has seven bytes at least. -/
theorem takes_decode : decode.Takes 7 :=
  takes_bind (m := 4) (n := 3) takes_readMagic fun _ =>
    takes_bind (m := 2) (n := 1) takes_readFlags fun flags =>
      takes_bind (m := 0) (n := 1) (shrinks_readCodec flags).takes fun _ =>
        takes_bind (n := 0) takes_varint fun _ => (shrinks_pure _).takes

end Header

namespace RecordDecoder

variable {d : RecordDecoder}

theorem takes_recordName : recordName.Takes 1 := by
  refine takes_bind (n := 0) takes_varint fun n => Shrinks.takes ?_
  split
  · exact shrinks_invalid _
  · refine shrinks_bind (shrinks_gathered _) fun _ => ?_
    split
    · exact shrinks_pure _
    · exact shrinks_invalid _

/-- A record has two bytes at least: its kind, and the length of its name. -/
theorem takes_record (d : RecordDecoder) : d.record.Takes 2 := by
  refine takes_bind (n := 1) takes_byte fun code => ?_
  unfold recordOfCode
  split
  · exact nofun
  · refine takes_bind (n := 0) takes_recordName fun name => Shrinks.takes ?_
    split
    · exact shrinks_pure _
    · exact shrinks_bind (shrinks_payload d name) fun _ => shrinks_pure _
    · exact shrinks_bind (shrinks_payload d name) fun _ => shrinks_pure _

theorem shrinks_record (d : RecordDecoder) : d.record.Shrinks :=
  shrinks_bind shrinks_byte (shrinks_recordOfCode d)

/-! ## Declared lengths -/

/-- The length of the payload that a record declares, if it has a payload. -/
def declared : Decoder (Option Nat) := do
  let code ← Decoder.byte
  let _ ← recordName
  if code = Kind.added.code then return none
  else do
    let _ ← Decoder.byte
    return some (← Decoder.varint)

variable {s t : Stream} {name : String} {x : Record} {raw bytes : Bytes}

theorem eq_of_checked (h : d.checked name raw s = (.ok bytes, t)) : bytes = raw := by
  unfold checked at h
  split at h
  · obtain ⟨sum, u, -, h⟩ := bind_eq_ok.1 h
    split at h
    · cases h
    · cases h
      rfl
  · cases h
    rfl

theorem declared_of_payload (h : d.payload name s = (.ok bytes, t)) : ∃ indicator u v,
    Decoder.byte s = (.ok indicator, u) ∧ Decoder.varint u = (.ok bytes.length, v) := by
  obtain ⟨indicator, u, hindicator, h⟩ := bind_eq_ok.1 h
  obtain ⟨n, v, hn, h⟩ := bind_eq_ok.1 h
  obtain ⟨_, _, -, h⟩ := bind_eq_ok.1 h
  obtain ⟨stored, _, -, h⟩ := bind_eq_ok.1 h
  obtain ⟨raw, _, hraw, h⟩ := bind_eq_ok.1 h
  cases eq_of_checked h
  have hunpack : d.unpack name indicator n stored = .ok bytes := (Prod.mk.inj hraw).1
  obtain ⟨rfl, -⟩ := unpack_eq_ok.1 hunpack
  exact ⟨indicator, u, v, hindicator, hn⟩

/-- A record that is decoded has a payload if it declares one, and then of the declared length. -/
theorem declared_of_record (h : d.record s = (.ok x, t)) :
    ∃ u, declared s = (.ok (x.bytes?.map List.length), u) := by
  obtain ⟨code, s₁, hcode, h⟩ := bind_eq_ok.1 h
  cases hkind : Kind.ofCode? code with
  | none =>
    rw [recordOfCode, hkind] at h
    cases h
  | some kind =>
    rw [recordOfCode, hkind] at h
    obtain ⟨name, s₂, hname, h⟩ := bind_eq_ok.1 h
    rw [← Kind.code_of_ofCode? hkind] at hcode
    have hpayload {bytes : Bytes} {s₃ : Stream} (hadded : kind.code ≠ Kind.added.code)
        (hp : d.payload name s₂ = (.ok bytes, s₃)) :
        ∃ u, declared s = (.ok (some bytes.length), u) := by
      obtain ⟨indicator, u, v, hindicator, hn⟩ := declared_of_payload hp
      refine ⟨v, bind_eq_ok.2 ⟨_, _, hcode, bind_eq_ok.2 ⟨_, _, hname, ?_⟩⟩⟩
      rw [if_neg hadded]
      exact bind_eq_ok.2 ⟨_, _, hindicator, bind_eq_ok.2 ⟨_, _, hn, rfl⟩⟩
    cases kind with
    | added =>
      cases h
      exact ⟨_, bind_eq_ok.2 ⟨_, _, hcode, bind_eq_ok.2 ⟨_, _, hname, rfl⟩⟩⟩
    | removed =>
      obtain ⟨bytes, s₃, hbytes, h⟩ := bind_eq_ok.1 h
      cases h
      exact hpayload (by decide) hbytes
    | modified =>
      obtain ⟨bytes, s₃, hbytes, h⟩ := bind_eq_ok.1 h
      cases h
      exact hpayload (by decide) hbytes

end RecordDecoder

namespace Reader

variable {r r' : Reader} {x : Record} {xs : List Record}

theorem next_takes (h : r.next = (.ok (some x), r')) :
    r'.stream.weight + 2 ≤ r.stream.weight := by
  unfold next at h
  split at h
  · cases h
  · split at h
    · next hrecord =>
      cases h
      exact RecordDecoder.takes_record _ hrecord
    · cases h

theorem next_weight_le (r : Reader) : r.next.2.stream.weight ≤ r.stream.weight := by
  have hle := RecordDecoder.shrinks_record r.decoder r.stream
  unfold next
  split
  · exact Nat.le_refl _
  · split
    · next h => rwa [h] at hle
    · next h => rwa [h] at hle

theorem Yields.takes (h : r.Yields xs r') : r'.stream.weight + 2 * xs.length ≤ r.stream.weight := by
  induction h with
  | nil => exact Nat.le_refl _
  | cons hnext _ ih =>
    have hle := next_takes hnext
    rw [List.length_cons]
    omega

theorem start_takes {o : ReadOptions} {s t : Stream} (h : start o s = (.ok r, t)) :
    r.stream.weight + 7 ≤ s.weight := by
  unfold start at h
  split at h
  · cases h
  · next hdecode =>
    split at h
    · cases h
    · cases h
      exact Header.takes_decode hdecode

/-! ## Any requests -/

/-- The records among some answers. -/
def records (answers : List (Except FormatError (Option Record))) : List Record :=
  answers.filterMap fun
    | .ok x => x
    | .error _ => none

/-- An item is what `next` says, from the same part of the stream. -/
theorem ask_eq (r : Reader) (q : Request) :
    (r.ask q).1 = r.next.1 ∧ (r.ask q).2.stream = r.next.2.stream := by
  cases q with
  | next => exact ⟨rfl, rfl⟩
  | item =>
    unfold ask item
    rcases r.next with ⟨e | _ | x, r'⟩ <;> exact ⟨rfl, rfl⟩

theorem ask_takes (r : Reader) (q : Request) :
    (r.ask q).2.stream.weight + 2 * (records [(r.ask q).1]).length ≤ r.stream.weight := by
  have hle := next_weight_le r
  rw [(r.ask_eq q).1, (r.ask_eq q).2]
  rcases hnext : r.next with ⟨e | _ | x, r'⟩
  · rwa [hnext] at hle
  · rwa [hnext] at hle
  · exact next_takes hnext

/-- However a reader is asked, and whatever it has answered before, each record uses up two
bytes. -/
theorem askAll_takes (r : Reader) (qs : List Request) :
    (r.askAll qs).2.stream.weight + 2 * (records (r.askAll qs).1).length ≤ r.stream.weight := by
  induction qs generalizing r with
  | nil => exact Nat.le_refl _
  | cons q qs ih =>
    have hfirst := ask_takes r q
    have hrest := ih (r.ask q).2
    have hlen : (records (r.askAll (q :: qs)).1).length =
        (records [(r.ask q).1]).length + (records ((r.ask q).2.askAll qs).1).length := by
      rw [← List.length_append, records, records, records, ← List.filterMap_append]
      rfl
    have hlast : (r.askAll (q :: qs)).2 = ((r.ask q).2.askAll qs).2 := rfl
    rw [hlen, hlast]
    omega

/-- Every payload has the length that its record declares. -/
theorem declared_of_next (h : r.next = (.ok (some x), r')) :
    ∃ u, RecordDecoder.declared r.stream = (.ok (x.bytes?.map List.length), u) := by
  unfold next at h
  split at h
  · cases h
  · split at h
    · next hrecord =>
      cases h
      exact RecordDecoder.declared_of_record hrecord
    · cases h

end Reader

/-! ## Files -/

theorem exists_decoded (o : ReadOptions) (s : Stream) : ∃ xs a, Decoded o s xs a := by
  cases hstart : (Reader.start o s).1 with
  | error e => exact ⟨[], _, .head hstart⟩
  | ok r =>
    obtain ⟨r', a, hy, hfresh, hs, -⟩ := Listing.collect_stops [] r
    exact ⟨_, a, .records hstart hy hfresh (hs.congr Reader.mem_namesAfter_nil)⟩

theorem Stream.weight_ofBytes (b : Bytes) : (ofBytes b).weight = b.length + 1 := rfl

theorem Decoded.takes {o : ReadOptions} {b : Bytes} {xs : List Record} {a : Except FormatError Unit}
    (h : Decoded o (.ofBytes b) xs a) : 2 * xs.length ≤ b.length := by
  cases h with
  | head => exact Nat.zero_le _
  | records hstart hy =>
    have hhead := Reader.start_takes (Prod.ext hstart rfl)
    have hbody := hy.takes
    rw [Stream.weight_ofBytes] at hhead
    omega

/-- Whatever count and lengths a file declares, what comes of it is backed by its bytes: the records
that a reader hands out, however it is asked, are at most half as many; reading ends, after as many
records at most, with all of them or an error; and each payload has the length that its record
declares. A built-in codec unpacks at most a byte more than the declared length. It unpacks a
payload, which has less than 2^64 - 1 bytes as all that is in memory, if that is all that the stored
bytes stand for and has the declared length; if they stand for more, they are refused. -/
theorem demand_backed (o : ReadOptions) (b : Bytes) :
    (∀ r t, Reader.start o (.ofBytes b) = (.ok r, t) → ∀ requests,
      2 * (Reader.records (r.askAll requests).1).length ≤ b.length) ∧
    (∃ xs a, Decoded o (.ofBytes b) xs a ∧ 2 * xs.length ≤ b.length ∧
      (readRecords o (.ofBytes b)).1 = a.map fun _ => xs) ∧
    (∀ r r' x, Reader.next r = (.ok (some x), r') →
      ∃ u, RecordDecoder.declared r.stream = (.ok (x.bytes?.map List.length), u)) ∧
    ∀ backend whole, Codec.Unlimited backend whole → ∀ stored n,
      (∀ out, backend.decompress stored n = .ok out → out.length ≤ n + 1) ∧
      ∀ (d : RecordDecoder) name, d.backend = some backend →
        (∀ raw, raw.length < Codec.maxLength →
          (d.unpack name Encoding.packedIndicator n stored = .ok raw ↔
            whole stored raw ∧ raw.length = n)) ∧
        (n < Codec.maxLength → ∀ out, whole stored out → n < out.length →
          ∃ e, d.unpack name Encoding.packedIndicator n stored = .error e) := by
  refine ⟨fun r t hstart requests => ?_, ?_, fun r r' x hnext => Reader.declared_of_next hnext,
    fun backend whole h stored n => ⟨fun out => h.length_le, fun d name hd =>
      ⟨fun raw => h.unpack_eq_ok_iff hd name, fun hn out => h.unpack_longer hd name hn⟩⟩⟩
  · have hhead := Reader.start_takes hstart
    have hbody := r.askAll_takes requests
    rw [Stream.weight_ofBytes] at hhead
    omega
  · obtain ⟨xs, a, hdecoded⟩ := exists_decoded o (.ofBytes b)
    exact ⟨xs, a, hdecoded, hdecoded.takes, readRecords_of_decoded hdecoded⟩

/-- A head that declares 2^64 - 1 records, and one record with a payload of three packed bytes. -/
theorem demand_of_many :
    let stored : Bytes := [0x78, 0x01, 0x01, 3, 0, 0xFC, 0xFF, 1, 2, 3, 0x00, 0x0D, 0x00, 0x07]
    let b : Bytes := [0x52, 0x53, 0x44, 0x46, 0x01, 0x02, 0x03] ++
      [0x81, 0xFF, 0xFF, 0xFF, 0xFF, 0xFF, 0xFF, 0xFF, 0xFF, 0x7F] ++
      [0x01, 0x01, 0x61, 0x01, 3, 14] ++ stored
    let d : RecordDecoder := ⟨some (Codec.zlib Codec.defaultLevel), false, true⟩
    (∃ r t u r', Reader.start {} (.ofBytes b) = (.ok r, t) ∧ r.remaining = 2 ^ 64 - 1 ∧
      2 * (Reader.records (r.askAll [.next, .item]).1).length ≤ b.length ∧
      r.next = (.ok (some (.removed "a" [1, 2, 3])), r') ∧
      RecordDecoder.declared r.stream = (.ok (some 3), u)) ∧
    d.unpack "a" Encoding.packedIndicator 3 stored = .ok [1, 2, 3] ∧
    Deflate.Whole (Codec.array stored) (Codec.array [1, 2, 3]) ∧
    ∃ e, d.unpack "a" Encoding.packedIndicator 2 stored = .error e := by
  intro stored b d
  obtain ⟨hrequests, -, hdeclared, hcodecs⟩ := demand_backed {} b
  have hzlib := hcodecs _ _ (.zlib Codec.defaultLevel) stored
  have hunpack : d.unpack "a" Encoding.packedIndicator 3 stored = .ok [1, 2, 3] := by decide +kernel
  have hwhole := (((hzlib 3).2 d "a" rfl).1 [1, 2, 3] (by decide)).1 hunpack
  refine ⟨?_, hunpack, hwhole.1, ((hzlib 2).2 d "a" rfl).2 (by decide) _ hwhole.1 (by decide)⟩
  have hrun : (Reader.start {} (.ofBytes b)).1.map (fun r => (r.remaining, r.next.1)) =
      .ok (2 ^ 64 - 1, .ok (some (.removed "a" [1, 2, 3]))) := by decide +kernel
  cases hstart : Reader.start {} (.ofBytes b) with
  | mk answer t =>
    rw [hstart] at hrun
    cases answer with
    | error e => cases hrun
    | ok r =>
      obtain ⟨hremaining, hfirst⟩ := Prod.mk.inj (Except.ok.inj hrun)
      have hnext : r.next = (.ok (some (.removed "a" [1, 2, 3])), r.next.2) := Prod.ext hfirst rfl
      obtain ⟨u, hu⟩ := hdeclared r _ _ hnext
      exact ⟨r, t, u, _, rfl, hremaining, hrequests r t hstart _, hnext, hu⟩

end CollectionDelta
