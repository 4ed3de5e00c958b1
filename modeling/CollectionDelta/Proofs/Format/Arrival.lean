import CollectionDelta.Proofs.Format.Truncation

/-!
Reading does not depend on how the bytes arrive.

* `Decoder.Gives`: what a decoder answers where some bytes and then an end are to come, and how many
  of the bytes it takes for that, for every stream that holds them.
* `Decoder.Determined`: there is such an answer for all bytes and either end; it holds of the parts
  of a file (`determined_varint`, `determined_gathered`, …) and passes to decoders in sequence
  (`Determined.bind`).
* `Reader.rest`, `Reader.ending`, `readRecords_eq`: a whole file as decoders in sequence.
* `readRecords_any_delivery`: two streams of the same bytes with the same end are read alike, and
  equally far.
-/

namespace CollectionDelta

open CollectionDelta.Stream (Ending)

theorem Varint.readOnto_eq (v : Nat) (s : Stream) : readOnto v s =
    match s.exactly 1 with
    | (.error f, t) => (.error f, t)
    | (.ok b, t) =>
      if limit ≤ v then (.error overflow, t)
      else if (b.headD 0).toNat < 128 then (.ok (v * 128 + (b.headD 0).toNat), t)
      else readOnto (v * 128 + ((b.headD 0).toNat - 128)) t := by
  rw [readOnto]
  split
  · next h => rw [h]
  · next h => rw [h]

namespace Decoder

variable {α β : Type}

/-- Where `b` and then `e` is to come, in whatever pieces, the decoder answers `r` and has then taken
`k` bytes. After a success the stream holds the others. -/
structure Gives (d : Decoder α) (b : Bytes) (e : Ending) (r : Except FormatError α) (k : Nat) :
    Prop where
  le : k ≤ b.length
  run : ∀ {s : Stream} {n : Nat}, s.Holds n b e → ∃ t, d s = (r, t) ∧ t.delivered = n + k ∧
    ∀ a, r = .ok a → t.Holds (n + k) (b.drop k) e

/-- Bytes and end alone decide what the decoder answers and how far it reads. -/
def Determined (d : Decoder α) : Prop := ∀ b e, ∃ r k, d.Gives b e r k

variable {d : Decoder α} {f : α → Decoder β} {b : Bytes} {e : Ending} {k k' : Nat}

theorem gives_ok {a : α} (hk : k ≤ b.length)
    (h : ∀ {s n}, s.Holds n b e → ∃ t, d s = (.ok a, t) ∧ t.Holds (n + k) (b.drop k) e) :
    d.Gives b e (.ok a) k := by
  refine ⟨hk, fun hs => ?_⟩
  obtain ⟨t, hd, ht⟩ := h hs
  exact ⟨t, hd, ht.delivered_eq, fun _ _ => ht⟩

theorem gives_error {err : FormatError} (hk : k ≤ b.length)
    (h : ∀ {s n}, s.Holds n b e → ∃ t, d s = (.error err, t) ∧ t.delivered = n + k) :
    d.Gives b e (.error err) k := by
  refine ⟨hk, fun hs => ?_⟩
  obtain ⟨t, hd, ht⟩ := h hs
  exact ⟨t, hd, ht, fun _ ha => nomatch ha⟩

/-! ## Decoders in sequence -/

theorem Gives.bind {a : α} {r : Except FormatError β} (hd : d.Gives b e (.ok a) k)
    (hf : (f a).Gives (b.drop k) e r k') : (d >>= f).Gives b e r (k + k') where
  le := by
    have hle := hf.le
    have hk := hd.le
    rw [List.length_drop] at hle
    omega
  run := by
    intro s n hs
    obtain ⟨t, hdt, -, ht⟩ := hd.run hs
    obtain ⟨t', hft, hn, ht'⟩ := hf.run (ht a rfl)
    rw [Nat.add_assoc] at hn ht'
    rw [List.drop_drop] at ht'
    exact ⟨t', by rw [bind_apply, hdt]; exact hft, hn, ht'⟩

theorem Gives.bind_error {err : FormatError} (hd : d.Gives b e (.error err) k) :
    (d >>= f).Gives b e (.error err) k := by
  refine gives_error hd.le fun hs => ?_
  obtain ⟨t, hdt, hn, -⟩ := hd.run hs
  exact ⟨t, by rw [bind_apply, hdt], hn⟩

theorem Determined.bind (hd : d.Determined) (hf : ∀ a, (f a).Determined) :
    (d >>= f).Determined := by
  intro b e
  obtain ⟨r, k, hr⟩ := hd b e
  cases r with
  | error err => exact ⟨_, k, hr.bind_error⟩
  | ok a =>
    obtain ⟨r', k', hr'⟩ := hf a (b.drop k) e
    exact ⟨r', k + k', hr.bind hr'⟩

/-! ## The parts -/

theorem determined_pure (a : α) : (pure a : Decoder α).Determined := fun b _ =>
  ⟨.ok a, 0, gives_ok (Nat.zero_le b.length) fun hs => ⟨_, rfl, hs⟩⟩

theorem determined_fail (err : FormatError) : (fail err : Decoder α).Determined := fun b _ =>
  ⟨.error err, 0, gives_error (Nat.zero_le b.length) fun hs => ⟨_, rfl, hs.delivered_eq⟩⟩

theorem determined_invalid (defect : Defect) : (invalid defect : Decoder α).Determined :=
  determined_fail _

theorem determined_ofExcept (r : Except FormatError α) : (ofExcept r).Determined := by
  cases r with
  | ok a => exact determined_pure a
  | error err => exact determined_fail err

theorem determined_ofGather (want : Nat) : (ofRead (Stream.gather want)).Determined := by
  intro b e
  by_cases hb : want ≤ b.length
  · refine ⟨.ok (b.take want), want, gives_ok hb fun hs => ?_⟩
    obtain ⟨t, hg, ht⟩ := Stream.gather_holds hb hs
    exact ⟨t, by rw [ofRead, hg], ht⟩
  have hlt : b.length < want := Nat.lt_of_not_le hb
  cases e with
  | ended =>
    refine ⟨.ok b, b.length, gives_ok (Nat.le_refl _) fun hs => ?_⟩
    obtain ⟨t, hg, ht⟩ := Stream.gather_short hlt hs
    rw [List.drop_length]
    exact ⟨t, by rw [ofRead, hg], ht⟩
  | broken fault =>
    refine ⟨.error (.io fault), b.length, gives_error (Nat.le_refl _) fun hs => ?_⟩
    obtain ⟨t, hg, ht⟩ := Stream.gather_broken hlt hs
    exact ⟨t, by rw [ofRead, hg], ht⟩

/-- An exact read gathers, and refuses what is too short. -/
theorem exactly_eq (want : Nat) : exactly want = (do
    let b ← ofRead (Stream.gather want)
    if b.length < want then fail (.io .shortRead) else return b) := by
  funext s
  rw [bind_apply, exactly, ofRead, ofRead, Stream.exactly]
  rcases s.gather want with ⟨fault | b, t⟩
  · rfl
  · by_cases hb : b.length < want
    · simp only [hb, if_true]
      rfl
    · simp only [hb, if_false]
      rfl

theorem determined_exactly (want : Nat) : (exactly want).Determined := by
  rw [exactly_eq]
  refine (determined_ofGather want).bind fun b => ?_
  split
  · exact determined_fail _
  · exact determined_pure b

theorem determined_gathered (want : Nat) : (gathered want).Determined := by
  refine (determined_ofGather want).bind fun b => ?_
  split
  · exact determined_fail _
  · exact determined_pure b

theorem byte_apply (s : Stream) : byte s =
    match s.exactly 1 with
    | (.ok b, t) => (.ok (b.headD 0), t)
    | (.error fault, t) => (.error (.io fault), t) := by
  rw [byte, bind_apply, exactly, ofRead]
  rcases s.exactly 1 with ⟨fault | b, t⟩
  · rfl
  · rfl

theorem determined_byte : byte.Determined :=
  (determined_exactly 1).bind fun _ => determined_pure _

theorem gives_byte (c : UInt8) (b : Bytes) (e : Ending) : byte.Gives (c :: b) e (.ok c) 1 := by
  refine gives_ok (Nat.le_add_left 1 b.length) fun hs => ?_
  obtain ⟨t, hr, ht⟩ := Stream.exactly_holds (Nat.le_add_left 1 b.length) hs
  exact ⟨t, by rw [byte_apply, hr]; rfl, ht⟩

theorem gives_byte_nil (e : Ending) : ∃ err, byte.Gives [] e (.error err) 0 := by
  have hlt : ([] : Bytes).length < 1 := Nat.zero_lt_one
  cases e with
  | ended =>
    refine ⟨.io .shortRead, gives_error (Nat.le_refl 0) fun hs => ?_⟩
    obtain ⟨t, hr, ht⟩ := Stream.exactly_short hlt hs
    exact ⟨t, by rw [byte_apply, hr], ht.delivered_eq⟩
  | broken fault =>
    refine ⟨.io fault, gives_error (Nat.le_refl 0) fun hs => ?_⟩
    obtain ⟨t, hr, ht⟩ := Stream.exactly_broken hlt hs
    exact ⟨t, by rw [byte_apply, hr], ht⟩

/-- A number as decoders in sequence: one group, and the others after it. -/
theorem ofRead_readOnto (v : Nat) : ofRead (Varint.readOnto v) = (do
    let c ← byte
    if Varint.limit ≤ v then fail (.io Varint.overflow)
    else if c.toNat < 128 then return v * 128 + c.toNat
    else ofRead (Varint.readOnto (v * 128 + (c.toNat - 128)))) := by
  funext s
  rw [bind_apply, byte_apply, ofRead, Varint.readOnto_eq]
  rcases s.exactly 1 with ⟨fault | b, t⟩
  · rfl
  · by_cases hv : Varint.limit ≤ v
    · simp only [hv, if_true]
      rfl
    · by_cases hb : (b.headD 0).toNat < 128
      · simp only [hv, hb, if_true, if_false]
        rfl
      · simp only [hv, hb, if_false]
        rfl

theorem determined_varint : varint.Determined := by
  have hfrom : ∀ b e v, ∃ r k, (ofRead (Varint.readOnto v)).Gives b e r k := by
    intro b e
    induction b with
    | nil =>
      intro v
      obtain ⟨err, h⟩ := gives_byte_nil e
      rw [ofRead_readOnto]
      exact ⟨_, 0, h.bind_error⟩
    | cons c b ih =>
      intro v
      obtain ⟨r, k, h⟩ : ∃ r k, (if Varint.limit ≤ v then fail (.io Varint.overflow)
          else if c.toNat < 128 then pure (v * 128 + c.toNat)
          else ofRead (Varint.readOnto (v * 128 + (c.toNat - 128))) : Decoder Nat).Gives
            b e r k := by
        split
        · exact determined_fail _ b e
        · split
          · exact determined_pure _ b e
          · exact ih _
      rw [ofRead_readOnto]
      exact ⟨r, 1 + k, (gives_byte c b e).bind h⟩
  exact fun b e => hfrom b e 0

end Decoder

/-! ## Heads and records -/

open Decoder in
theorem Header.determined_decode : Header.decode.Determined := by
  refine Determined.bind ?_ fun _ => Determined.bind ?_ fun flags => Determined.bind ?_ fun _ =>
    determined_varint.bind fun _ => determined_pure _
  · refine (determined_exactly _).bind fun _ => ?_
    split
    · exact determined_pure _
    · exact determined_invalid _
  · refine (determined_exactly _).bind fun _ => ?_
    dsimp only
    split
    · exact determined_fail _
    · split
      · exact determined_pure _
      · exact determined_invalid _
  · unfold readCodec
    split
    · exact determined_byte.bind fun _ => determined_pure _
    · exact determined_pure _

namespace RecordDecoder

open Decoder

theorem determined_recordName : recordName.Determined := by
  refine determined_varint.bind fun _ => ?_
  split
  · exact determined_invalid _
  · refine (determined_gathered _).bind fun _ => ?_
    split
    · exact determined_pure _
    · exact determined_invalid _

theorem determined_checked (d : RecordDecoder) (name : String) (raw : Bytes) :
    (d.checked name raw).Determined := by
  unfold checked
  split
  · refine (determined_exactly 4).bind fun _ => ?_
    dsimp only
    split
    · exact determined_fail _
    · exact determined_pure _
  · exact determined_pure _

theorem determined_payload (d : RecordDecoder) (name : String) : (d.payload name).Determined :=
  determined_byte.bind fun _ => determined_varint.bind fun _ => determined_varint.bind fun _ =>
  (determined_gathered _).bind fun _ => (determined_ofExcept _).bind fun raw =>
  determined_checked d name raw

theorem determined_record (d : RecordDecoder) : d.record.Determined := by
  refine determined_byte.bind fun code => ?_
  unfold recordOfCode
  split
  · exact determined_invalid _
  · refine determined_recordName.bind fun name => ?_
    split
    · exact determined_pure _
    · exact (determined_payload d name).bind fun _ => determined_pure _
    · exact (determined_payload d name).bind fun _ => determined_pure _

end RecordDecoder

/-! ## A whole file -/

namespace Reader

open Decoder

/-- The records that are left, as a decoder of the stream alone. -/
def rest (head : Header) (d : RecordDecoder) (seen : List String) (count : Nat) :
    Decoder (List Record) := fun s =>
  let (answer, r) := (⟨head, d, count, s⟩ : Reader).distinctRecords seen
  (answer, r.stream)

variable {head : Header} {d : RecordDecoder} {seen : List String} {count : Nat}

theorem rest_zero : rest head d seen 0 = pure [] := by
  funext s
  rw [rest, distinctRecords_done seen rfl]
  rfl

theorem rest_succ : rest head d seen (count + 1) = (do
    let x ← d.record
    if x.name ∈ seen then invalid (.duplicateRecord x.name)
    else do
      let more ← rest head d (x.name :: seen) count
      return x :: more) := by
  funext s
  let r : Reader := ⟨head, d, count + 1, s⟩
  rw [bind_apply]
  cases hx : d.record s with
  | mk answer t =>
    cases answer with
    | error err =>
      have hnext : r.next = (.error err, { r with stream := t }) := by simp [next, r, hx]
      rw [rest, distinctRecords_error hnext]
    | ok x =>
      have hnext : r.next = (.ok (some x), ⟨head, d, count, t⟩) := by simp [next, r, hx]
      rw [rest, distinctRecords_next hnext]
      dsimp only
      split
      · rfl
      · rw [bind_apply, rest]
        rcases distinctRecords (x.name :: seen) ⟨head, d, count, t⟩ with ⟨err | more, r'⟩
        · rfl
        · rfl

theorem determined_rest : (rest head d seen count).Determined := by
  induction count generalizing seen with
  | zero =>
    rw [rest_zero]
    exact determined_pure []
  | succ count ih =>
    rw [rest_succ]
    refine (RecordDecoder.determined_record d).bind fun x => ?_
    split
    · exact determined_invalid _
    · exact ih.bind fun _ => determined_pure _

/-- The end of the data, as a decoder. -/
def ending : Decoder Unit := expectEnd

theorem ending_eq : ending = (do
    let b ← ofRead (Stream.gather 1)
    if b = [] then return () else invalid .trailingData) := by
  funext s
  rw [bind_apply, ending, expectEnd, ofRead]
  rcases s.gather 1 with ⟨fault | b, t⟩
  · rfl
  · cases b <;> rfl

theorem determined_ending : ending.Determined := by
  rw [ending_eq]
  refine (determined_ofGather 1).bind fun b => ?_
  split
  · exact determined_pure ()
  · exact determined_invalid _

end Reader

/-- A whole file is its head, the codec that the head names, the records, and nothing after them. -/
theorem readRecords_eq (o : ReadOptions) : readRecords o = (do
    let head ← Header.decode
    let backend ← Decoder.ofExcept (Reader.backendFor o head.codec)
    let records ← Reader.rest head ⟨backend, head.hasChecksum, o.verify⟩ [] head.count
    Reader.ending
    return records : Decoder (List Record)) := by
  funext s
  rw [Decoder.bind_apply, readRecords, Reader.start]
  rcases Header.decode s with ⟨err | head, t⟩
  · rfl
  dsimp only
  rw [Decoder.bind_apply, Decoder.ofExcept]
  cases Reader.backendFor o head.codec with
  | error err => rfl
  | ok backend =>
    dsimp only
    rw [Decoder.bind_apply, Reader.rest]
    cases hrecords : Reader.distinctRecords []
        ⟨head, ⟨backend, head.hasChecksum, o.verify⟩, head.count, t⟩ with
    | mk answer r =>
      cases answer with
      | error err => rfl
      | ok records =>
        obtain ⟨-, hdone, -⟩ := Reader.distinctRecords_sound hrecords
        dsimp only
        rw [Reader.finish_done hdone, Decoder.bind_apply, Reader.ending]
        rcases Reader.expectEnd r.stream with ⟨err | _, t'⟩
        · rfl
        · rfl

theorem determined_readRecords (o : ReadOptions) : Decoder.Determined (readRecords o) := by
  rw [readRecords_eq]
  exact Header.determined_decode.bind fun head => (Decoder.determined_ofExcept _).bind fun _ =>
    Reader.determined_rest.bind fun _ => Reader.determined_ending.bind fun _ =>
    Decoder.determined_pure _

/-- Two streams that have the same bytes to come and the same end after them, in pieces of any sizes
and with any number of interruptions, are read as the same records or refused for the same reason,
and as many of the bytes are taken from the one as from the other. -/
theorem readRecords_any_delivery {s s' : Stream} {n n' : Nat} {b : Bytes} {e : Ending}
    (o : ReadOptions) (hs : s.Holds n b e) (hs' : s'.Holds n' b e) :
    (readRecords o s).1 = (readRecords o s').1 ∧ ∃ k ≤ b.length,
      (readRecords o s).2.delivered = n + k ∧ (readRecords o s').2.delivered = n' + k := by
  obtain ⟨r, k, hk, h⟩ := determined_readRecords o b e
  obtain ⟨t, hr, hn, -⟩ := h hs
  obtain ⟨t', hr', hn', -⟩ := h hs'
  rw [hr, hr']
  exact ⟨rfl, k, hk, hn, hn'⟩

/-- Two records and then a connection that is lost, two bytes at a time after an interruption, and
all at once from a stream that has handed over five bytes before. -/
theorem readRecords_in_pieces :
    let b : Bytes := [0x52, 0x53, 0x44, 0x46, 0x01, 0x00, 0x02, 0x00, 0x01, 0x61, 0x01, 0x01, 0x62,
      0x00, 0x01, 0x01, 0x07]
    let lost : Fault := ⟨.connectionReset, "gone"⟩
    let s : Stream := { script := [.data (b.take 3) none, .fail ⟨.interrupted, "again"⟩,
      .data (b.drop 3) (some 2), .fail lost] }
    let s' : Stream := { script := [.data b none, .fail lost], delivered := 5 }
    s.Holds 0 b (.broken lost) ∧ s'.Holds 5 b (.broken lost) ∧
      (readRecords {} s).1 = .error (.io lost) ∧ ∃ k ≤ b.length,
        (readRecords {} s).2.delivered = 0 + k ∧ (readRecords {} s').2.delivered = 5 + k := by
  intro b lost s s'
  have hs : s.Holds 0 b (.broken lost) :=
    ⟨.data (by simp) (.interrupted rfl (.data (by simp) (.broken rfl))), rfl⟩
  have hs' : s'.Holds 5 b (.broken lost) := by
    refine ⟨?_, rfl⟩
    rw [← List.append_nil b]
    exact .data (by simp) (.broken rfl)
  have hread : (readRecords {} s').1 = .error (.io lost) := by decide +kernel
  obtain ⟨hsame, hdelivered⟩ := readRecords_any_delivery {} hs hs'
  exact ⟨hs, hs', hsame.trans hread, hdelivered⟩

end CollectionDelta
