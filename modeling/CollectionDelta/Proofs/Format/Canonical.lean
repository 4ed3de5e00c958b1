import CollectionDelta.Proofs.Format.Checked

/-!
The one freedom that the format leaves to a writer.

* `Form.here`, `Form.map`: a form along with its own bytes, and with another value.
* `Numbers.file`: the numbers that a file holds, as the bytes that they are written in: the count of
  its records, and the lengths of names and payloads; `Numbers.prefixFree_file`.
* `Shortens`: bytes that say the same as others, with all numbers as short as can be.
* `Numbers.exists_name` to `Numbers.exists_file`: each part that was read has such numbers, and what
  is written for it again shortens it.
* `rewritten_shortest`: a file without compression that is read and written again is not longer than
  before, and is the same if and only if its numbers were as short as can be.
-/

namespace CollectionDelta

open Decoder (Raw)

/-! ## Forms with another value -/

/-- A form of a value, along with its bytes. -/
def Form.here {α : Type} (G : Form α) : Form (α × Bytes) := fun x w => G x.1 w ∧ x.2 = w

def Form.map {α β : Type} (f : α → β) (G : Form α) : Form β := fun b w => ∃ a, b = f a ∧ G a w

theorem Form.PrefixFree.here {α : Type} {G : Form α} (h : G.PrefixFree) : G.here.PrefixFree := by
  rintro ⟨a, u⟩ ⟨a', u'⟩ w w' rest rest' ⟨ha, rfl⟩ ⟨ha', rfl⟩ heq
  obtain ⟨rfl, rfl, hrest⟩ := h ha ha' heq
  exact ⟨rfl, rfl, hrest⟩

theorem Form.PrefixFree.map {α β : Type} {G : Form α} (h : G.PrefixFree) (f : α → β) :
    (G.map f).PrefixFree := by
  rintro _ _ w w' rest rest' ⟨a, rfl, ha⟩ ⟨a', rfl, ha'⟩ heq
  obtain ⟨rfl, hw, hrest⟩ := h ha ha' heq
  exact ⟨rfl, hw, hrest⟩

/-! ## The numbers of a file -/

namespace Numbers

/-- The length of a name. -/
def name : Form (List Bytes) := Varint.Groups.here.seq fun length => (Raw length.1).as [length.2]

/-- The length of a payload, and the length of what is stored for it. -/
def payload (checksum : Bool) : Form (List Bytes) :=
  (Raw 1).seq fun _ => Varint.Groups.here.seq fun length => Varint.Groups.here.seq fun stored =>
    (Raw (stored.1 + if checksum then 4 else 0)).as [length.2, stored.2]

def record (checksum : Bool) : Form (List Bytes) :=
  (Raw 1).seq fun code => name.seq fun ns =>
    (if code = [Kind.added.code] then (Raw 0).as [] else payload checksum).map (ns ++ ·)

def records (checksum : Bool) : Nat → Form (List Bytes)
  | 0 => (Raw 0).as []
  | n + 1 => (record checksum).seq fun ns => (records checksum n).map (ns ++ ·)

/-- The number of records, and then their numbers. -/
def file : Form (List Bytes) :=
  (Raw 6).seq fun b => (Raw (if Header.compressedFlag (b.getD 5 0) then 1 else 0)).seq fun _ =>
    Varint.Groups.here.seq fun count =>
      (records (Header.checksumFlag (b.getD 5 0)) count.1).map (count.2 :: ·)

theorem prefixFree_payload (checksum : Bool) : (payload checksum).PrefixFree :=
  (prefixFree_raw 1).seq fun _ => Varint.prefixFree_groups.here.seq fun _ =>
    Varint.prefixFree_groups.here.seq fun _ => (prefixFree_raw _).as _

theorem prefixFree_record (checksum : Bool) : (record checksum).PrefixFree := by
  refine (prefixFree_raw 1).seq fun code => Form.PrefixFree.seq ?_ fun ns => ?_
  · exact Varint.prefixFree_groups.here.seq fun length => (prefixFree_raw _).as _
  · refine Form.PrefixFree.map ?_ _
    split
    · exact (prefixFree_raw 0).as []
    · exact prefixFree_payload checksum

theorem prefixFree_records (checksum : Bool) (n : Nat) : (records checksum n).PrefixFree := by
  induction n with
  | zero => exact (prefixFree_raw 0).as []
  | succ n ih => exact (prefixFree_record checksum).seq fun ns => ih.map _

/-- The bytes of a file decide which numbers it holds. -/
theorem prefixFree_file : file.PrefixFree :=
  (prefixFree_raw 6).seq fun _ => (prefixFree_raw _).seq fun _ =>
    Varint.prefixFree_groups.here.seq fun _ => (prefixFree_records _ _).map _

end Numbers

/-! ## Numbers as short as can be -/

/-- The bytes `e` say the same as `w` with its numbers as short as can be; they are `ns` in `w`. -/
structure Shortens (e w : Bytes) (ns : List Bytes) : Prop where
  length_le : e.length ≤ w.length
  eq_iff : e = w ↔ ∀ n ∈ ns, Varint.Shortest n

namespace Shortens

theorem refl (w : Bytes) : Shortens w w [] := ⟨Nat.le_refl _, by simp⟩

theorem number {n : Nat} {w : Bytes} (h : Varint.Written n w) :
    Shortens (Varint.encode n) w [w] :=
  ⟨(Varint.encode_shortest h.groups).1, by simp [Varint.shortest_iff h]⟩

theorem append {e e' w w' : Bytes} {ns ns' : List Bytes} (h : Shortens e w ns)
    (h' : Shortens e' w' ns') : Shortens (e ++ e') (w ++ w') (ns ++ ns') where
  length_le := by
    rw [List.length_append, List.length_append]
    exact Nat.add_le_add h.length_le h'.length_le
  eq_iff := by
    -- neither part is longer than before, so that equal wholes have equal parts
    have hparts : e ++ e' = w ++ w' ↔ e = w ∧ e' = w' := by
      constructor
      · intro heq
        have hlen := congrArg List.length heq
        rw [List.length_append, List.length_append] at hlen
        have hle := h.length_le
        have hle' := h'.length_le
        exact List.append_inj heq (by omega)
      · rintro ⟨rfl, rfl⟩
        rfl
    rw [hparts, h.eq_iff, h'.eq_iff]
    simp only [List.mem_append, or_imp, forall_and]

end Shortens

/-! ## Names, payloads and records -/

namespace Numbers

variable {d : RecordDecoder} {s t : WriteStats} {x : Record} {xs : List Record} {w p : Bytes}

theorem exists_name {name : String} (h : NameWritten name w) : ∃ ns, Numbers.name ns w ∧
    Shortens (Varint.encode (Bytes.ofText name).length ++ Bytes.ofText name) w ns := by
  obtain ⟨length, rfl, -, hlength⟩ := h
  refine ⟨[length], ⟨(_, length), length, _, rfl, ⟨hlength.groups, rfl⟩, rfl, spans_raw rfl⟩, ?_⟩
  exact (Shortens.number hlength).append (.refl _)

/-- A payload of a file without compression is stored as it is, and its checksum is right. -/
theorem exists_payload {raw : Bytes} (hbackend : d.backend = none) (hv : d.verify = true)
    (h : d.PayloadWritten raw p) : ∃ ns, payload d.checksum ns p ∧
      Shortens (Encoding.payloadPieces d.checksum raw ⟨Encoding.rawIndicator, raw⟩).flatten p
        ns := by
  cases h with
  | packed hpacked => rw [hbackend] at hpacked; cases hpacked
  | @raw _ length length' sum hl hl' hsum =>
    obtain ⟨hlen, rfl⟩ : sum.length = (if d.checksum then 4 else 0) ∧
        sum = (if d.checksum then [Bytes.ofNat 4 (adler32 raw)] else []).flatten := by
      rw [RecordDecoder.SumWritten] at hsum
      split at hsum
      · next hd => rw [if_pos hd, if_pos hd, List.flatten_singleton]; exact ⟨hsum.1, hsum.2 hv⟩
      · next hd => rw [if_neg hd, if_neg hd, hsum]; exact ⟨rfl, rfl⟩
    refine ⟨[length, length'], ⟨[0x00], [0x00], _, by simp only [List.append_assoc]; rfl,
      ⟨rfl, rfl⟩, (_, length), length, _, rfl, ⟨hl.groups, rfl⟩, (_, length'), length', _, rfl,
      ⟨hl'.groups, rfl⟩, rfl, spans_raw ?_⟩, ?_⟩
    · rw [List.length_append, hlen]
    · have h := (Shortens.refl [0x00]).append ((Shortens.number hl).append
        ((Shortens.number hl').append (.refl (raw ++
          (if d.checksum then [Bytes.ofNat 4 (adler32 raw)] else []).flatten))))
      simpa [Encoding.payloadPieces, Encoding.rawIndicator] using h

theorem record_added {checksum : Bool} {ns : List Bytes} (h : name ns w) :
    record checksum ns ([Kind.added.code] ++ w) := by
  refine ⟨[Kind.added.code], [Kind.added.code], w, rfl, ⟨rfl, rfl⟩, ns, w, [],
    (List.append_nil w).symm, h, [], (List.append_nil ns).symm, ?_⟩
  rw [if_pos rfl]
  exact ⟨rfl, spans_raw rfl⟩

theorem record_kept {checksum : Bool} {kind : Kind} {ns ms : List Bytes} (hkind : kind ≠ .added)
    (h : name ns w) (hp : payload checksum ms p) :
    record checksum (ns ++ ms) ([kind.code] ++ (w ++ p)) := by
  refine ⟨[kind.code], [kind.code], w ++ p, rfl, ⟨rfl, rfl⟩, ns, w, p, rfl, h, ms, rfl, ?_⟩
  have hcode : [kind.code] ≠ [Kind.added.code] := by
    cases kind with
    | added => exact absurd rfl hkind
    | removed => decide
    | modified => decide
  rwa [if_neg hcode]

theorem exists_record (hbackend : d.backend = none) (hv : d.verify = true)
    (h : d.RecordWritten x w) (ht : (Encoding.ofRecord ⟨none, d.checksum⟩ s x).result = .ok t) :
    ∃ ns, record d.checksum ns w ∧
      Shortens (Encoding.ofRecord ⟨none, d.checksum⟩ s x).bytes w ns := by
  cases hx : x.bytes? with
  | none =>
    have hbytes := Encoding.bytes_ofRecord_added ht hx
    cases h with
    | added hname =>
      obtain ⟨ns, hns, hshort⟩ := exists_name hname
      rw [hbytes]
      exact ⟨ns, record_added hns, (Shortens.refl [Kind.added.code]).append hshort⟩
    | removed => cases hx
    | modified => cases hx
  | some raw =>
    obtain ⟨stored, hstored, hbytes⟩ := Encoding.bytes_ofRecord ht hx
    cases hstored
    obtain ⟨w, p, rfl, hname, hpayload⟩ := h.parts hx
    have hkind : x.kind ≠ .added := by
      intro hadded
      rw [Encoding.kind_eq_added_iff.1 hadded] at hx
      cases hx
    obtain ⟨ns, hns, hshort⟩ := exists_name hname
    obtain ⟨ms, hms, hshort'⟩ := exists_payload hbackend hv hpayload
    rw [hbytes]
    exact ⟨ns ++ ms, record_kept hkind hns hms,
      (Shortens.refl [x.kind.code]).append (hshort.append hshort')⟩

theorem exists_records (hbackend : d.backend = none) (hv : d.verify = true)
    (h : d.RecordsWritten xs w)
    (ht : (Encoding.ofList ⟨none, d.checksum⟩ s xs).result = .ok t) :
    ∃ ns, records d.checksum xs.length ns w ∧
      Shortens (Encoding.ofList ⟨none, d.checksum⟩ s xs).bytes w ns := by
  induction h generalizing s with
  | nil => exact ⟨[], ⟨rfl, spans_raw rfl⟩, .refl []⟩
  | @cons x xs w ws hx _ ih =>
    obtain ⟨s', hfirst, hrest, hbytes⟩ := Encoding.ofList_cons_ok ht
    obtain ⟨ns, hns, hshort⟩ := exists_record hbackend hv hx hfirst
    obtain ⟨ms, hms, hshort'⟩ := ih hrest
    rw [hbytes]
    exact ⟨ns ++ ms, ⟨ns, w, ws, rfl, hns, ms, rfl, hms⟩, hshort.append hshort'⟩

end Numbers

/-! ## Files -/

theorem Header.flagsOf_flags {flags : UInt8} (h : flags.toNat < 4) :
    flagsOf (checksumFlag flags) (compressedFlag flags) = flags := by
  have hcases : flags = 0 ∨ flags = 1 ∨ flags = 2 ∨ flags = 3 := by
    simp only [← UInt8.toNat_inj]
    simp only [UInt8.reduceToNat]
    omega
  rcases hcases with rfl | rfl | rfl | rfl <;> rfl

/-- What was read fits into a file. -/
theorem RecordDecoder.RecordWritten.fits {d : RecordDecoder} {x : Record} {w : Bytes}
    (h : d.RecordWritten x w) :
    (Bytes.ofText x.name).length ≤ maxNameLength ∧ x.size < 2 ^ 64 := by
  have hname {name : String} {u : Bytes} (h : NameWritten name u) :
      (Bytes.ofText name).length ≤ maxNameLength := by
    obtain ⟨_, -, hle, -⟩ := h
    exact hle
  have hsize {raw p : Bytes} (h : d.PayloadWritten raw p) : raw.length < 2 ^ 64 := by
    obtain ⟨_, _, _, _, _, -, ⟨_, _, -, -, -, -, hlt⟩, -⟩ := h.frame
    exact hlt
  cases h with
  | added hn => exact ⟨hname hn, Nat.two_pow_pos 64⟩
  | removed hn hp => exact ⟨hname hn, hsize hp⟩
  | modified hn hp => exact ⟨hname hn, hsize hp⟩

theorem RecordDecoder.RecordsWritten.fits {d : RecordDecoder} {xs : List Record} {w : Bytes}
    (h : d.RecordsWritten xs w) :
    ∀ x ∈ xs, (Bytes.ofText x.name).length ≤ maxNameLength ∧ x.size < 2 ^ 64 := by
  induction h with
  | nil => nofun
  | cons hx _ ih => exact List.forall_mem_cons.2 ⟨hx.fits, ih⟩

theorem FileWritten.writable {o : ReadOptions} {records : List Record} {b : Bytes}
    (h : FileWritten o records b) : Writable records := by
  obtain ⟨header, head, body, backend, -, hhead, -, hcount, hbody, -⟩ := h
  obtain ⟨_, -, -, -, _, _, -, -, -, -, hlt⟩ := hhead
  exact ⟨fun r hr => (hbody.fits r hr).1, fun r hr => (hbody.fits r hr).2, hcount ▸ hlt⟩

/-- The head of a file without compression has no byte but those of its flags and its count. -/
theorem Encoding.encode_header {flags : UInt8} (h : flags.toNat < 4)
    (hflag : Header.compressedFlag flags = false) (records : List Record) :
    (header ⟨none, Header.checksumFlag flags⟩ records).encode =
      magic ++ [Header.version, flags] ++ Varint.encode records.length := by
  have hflags : (header ⟨none, Header.checksumFlag flags⟩ records).flags = flags := by
    have heq := Header.flagsOf_flags h
    rwa [hflag] at heq
  rw [encode_head, hflags, codecByte, Header.isCompressed, hflags, hflag]
  exact congrArg (· ++ _) (List.append_nil _)

namespace Numbers

theorem file_head {flags : UInt8} {count body : Bytes} {n : Nat} {ns : List Bytes}
    (hflag : Header.compressedFlag flags = false) (hcount : Varint.Groups n count)
    (hbody : records (Header.checksumFlag flags) n ns body) :
    file (count :: ns) (magic ++ [Header.version, flags] ++ count ++ body) := by
  have hcodec : ([] : Bytes).length = if Header.compressedFlag flags then 1 else 0 := by
    rw [hflag]
    rfl
  rw [List.append_assoc]
  exact ⟨magic ++ [Header.version, flags], _, count ++ body, rfl, ⟨rfl, rfl⟩, [], [], count ++ body,
    rfl, ⟨rfl, hcodec⟩, (n, count), count, body, rfl, ⟨hcount, rfl⟩, ns, rfl, hbody⟩

theorem exists_file {o : ReadOptions} {b : Bytes} (hv : o.verify = true)
    (hflag : Header.compressedFlag (b.getD 5 0) = false) (h : FileWritten o xs b)
    (ht : (Encoding.ofRecords ⟨none, Header.checksumFlag (b.getD 5 0)⟩ xs).result = .ok t) :
    ∃ ns, file ns b ∧
      Shortens (Encoding.ofRecords ⟨none, Header.checksumFlag (b.getD 5 0)⟩ xs).bytes b ns := by
  obtain ⟨⟨flags, codec, n⟩, head, body, backend, rfl, hhead, hcodec, hcount, hbody, -⟩ := h
  obtain ⟨count, rfl, hflags, hsome, hwritten⟩ := hhead
  have hget : ([0x52, 0x53, 0x44, 0x46] ++ [0x01, flags] ++ codec.toList ++ count ++ body).getD
      5 0 = flags := by simp
  rw [hget] at hflag ht ⊢
  obtain rfl : codec = none := by
    rw [Header.isCompressed, hflag, Option.isSome_eq_false_iff, Option.isNone_iff_eq_none] at hsome
    exact hsome
  cases hcodec
  obtain ⟨ns, hns, hshort⟩ := exists_records rfl hv hbody ht
  obtain rfl : xs.length = n := hcount
  rw [Encoding.bytes_ofRecords, Encoding.encode_header hflags hflag]
  exact ⟨count :: ns, file_head hflag hwritten.groups hns,
    ((Shortens.refl (magic ++ [Header.version, flags])).append (.number hwritten)).append hshort⟩

end Numbers

/-- A file without compression that is read with verification can be written again, and the new file
is not longer. Any reader has the same records of it; and it is the same file, byte for byte, if and
only if all numbers of the old one, which its bytes decide, are as short as can be. -/
theorem rewritten_shortest {o : ReadOptions} {b : Bytes} {records : List Record}
    (hv : o.verify = true) (hflag : Header.compressedFlag (b.getD 5 0) = false)
    (hread : (readRecords o (.ofBytes b)).1 = .ok records) :
    ∃ (stats : WriteStats) (sink : Sink) (numbers : List Bytes),
      (Encoding.ofRecords ⟨none, Header.checksumFlag (b.getD 5 0)⟩ records).write Sink.unlimited =
        (.ok stats, sink) ∧
      sink.written.length ≤ b.length ∧
      (∀ ro, (readRecords ro (.ofBytes sink.written)).1 = .ok records) ∧
      (∀ ns, Numbers.file ns b ↔ ns = numbers) ∧
      (sink.written = b ↔ ∀ w ∈ numbers, Varint.Shortest w) := by
  obtain ⟨hfile, -⟩ := readRecords_sound (Stream.holds_ofBytes b) (Prod.ext hread rfl)
  have hwritable := hfile.writable
  obtain ⟨stats, body, hresult, hbytes, hbody⟩ := Encoding.ofRecords_written
    (o := ⟨none, Header.checksumFlag (b.getD 5 0)⟩) nofun hwritable
  obtain ⟨sink, hwrite, hwritten⟩ := Encoding.write_unlimited
    (Encoding.ofRecords ⟨none, Header.checksumFlag (b.getD 5 0)⟩ records)
  obtain ⟨numbers, hnumbers, hshort⟩ := Numbers.exists_file hv hflag hfile hresult
  refine ⟨stats, sink, numbers, hresult ▸ hwrite, ?_, fun ro => ?_,
    fun ns => ⟨fun hns => ?_, ?_⟩, ?_⟩
  · rw [hwritten]
    exact hshort.length_le
  · have hprovides : ro.Provides none := ⟨none, rfl, nofun⟩
    obtain ⟨_, _, _, _, -, -, -, -, -, hnodup⟩ := hfile
    rw [hwritten, hbytes]
    exact Encoding.readRecords_of_nodup hprovides hwritable.length_lt hbody hnodup
  · exact (Numbers.prefixFree_file hns hnumbers (rfl : b ++ [] = b ++ [])).1
  · rintro rfl
    exact hnumbers
  · rw [hwritten]
    exact hshort.eq_iff

/-- The count of the records is a byte longer than it had to be. -/
theorem rewritten_padded :
    let b : Bytes := [0x52, 0x53, 0x44, 0x46, 1, 0, 0x80, 0x01, 0, 1, 0x61]
    ∃ (stats : WriteStats) (sink : Sink) (numbers : List Bytes),
      (Encoding.ofRecords ⟨none, false⟩ [.added "a"]).write Sink.unlimited = (.ok stats, sink) ∧
      sink.written.length ≤ b.length ∧
      (∀ ns, Numbers.file ns b ↔ ns = numbers) ∧
      (sink.written = b ↔ ∀ w ∈ numbers, Varint.Shortest w) := by
  intro b
  have hread : (readRecords {} (.ofBytes b)).1 = .ok [.added "a"] := by decide +kernel
  obtain ⟨stats, sink, numbers, hwrite, hle, -, hnumbers, hsame⟩ :=
    rewritten_shortest rfl (by decide) hread
  exact ⟨stats, sink, numbers, hwrite, hle, hnumbers, hsame⟩

end CollectionDelta
