import CollectionDelta.Proofs.Format.File

/-!
How far a file reaches, by its own lengths and counts alone.

* `Form.Spans`: bytes that are a form of some value; `Form.PrefixFree.eq_nil` says that they do not
  go on to be another one.
* `Extent.name`, `Extent.payload`, `Extent.record`, `Extent.records`, `Extent.file`: the parts of a
  file, whatever the codec, the checksums and the contents.
* `Extent.spans_file`: every file that is read is one by its extent.
* `Extent.prefixFree_file`: no such file is the beginning of another.
-/

namespace CollectionDelta

open Decoder (Raw)

/-! ## Bytes that a form spans -/

def Form.Spans {α : Type} (G : Form α) (w : Bytes) : Prop := ∃ a, G a w

theorem Form.Spans.seq {α β : Type} {G : Form α} {H : α → Form β} {a : α} {u v : Bytes}
    (hu : G a u) (hv : (H a).Spans v) : (G.seq H).Spans (u ++ v) := by
  obtain ⟨b, hb⟩ := hv
  exact ⟨b, a, u, v, rfl, hu, hb⟩

theorem Form.PrefixFree.eq_nil {α : Type} {G : Form α} (h : G.PrefixFree) {w x : Bytes}
    (hw : G.Spans w) (hwx : G.Spans (w ++ x)) : x = [] := by
  obtain ⟨a, ha⟩ := hw
  obtain ⟨a', ha'⟩ := hwx
  obtain ⟨-, -, hx⟩ := h ha ha' (List.append_nil (w ++ x)).symm
  exact hx

theorem spans_raw {w : Bytes} {n : Nat} (h : w.length = n) : (Raw n).Spans w := ⟨w, rfl, h⟩

theorem prefixFree_raw (n : Nat) : (Raw n).PrefixFree := (Decoder.accepts_exactly n).prefixFree

namespace Extent

/-! ## The parts of a file -/

/-- A number, and as many bytes. -/
def name : Form Bytes := Varint.Groups.seq Raw

/-- An indicator, the length of the payload, and the stored bytes after their own length. -/
def payload (checksum : Bool) : Form Bytes :=
  (Raw 1).seq fun _ => Varint.Groups.seq fun _ => Varint.Groups.seq fun stored =>
    (Raw stored).seq fun _ => Raw (if checksum then 4 else 0)

/-- The code of a kind decides whether there is a payload. -/
def record (checksum : Bool) : Form Bytes :=
  (Raw 1).seq fun code => name.seq fun _ =>
    if code = [Kind.added.code] then Raw 0 else payload checksum

def records (checksum : Bool) : Nat → Form Bytes
  | 0 => Raw 0
  | n + 1 => (record checksum).seq fun _ => records checksum n

/-- Magic, version and flags, of which the flags say what follows. -/
def file : Form Bytes :=
  (Raw 6).seq fun b => (Raw (if Header.compressedFlag (b.getD 5 0) then 1 else 0)).seq fun _ =>
    Varint.Groups.seq fun count => records (Header.checksumFlag (b.getD 5 0)) count

/-! ## No part is the beginning of another -/

theorem prefixFree_name : name.PrefixFree := Varint.prefixFree_groups.seq prefixFree_raw

theorem prefixFree_payload (checksum : Bool) : (payload checksum).PrefixFree :=
  (prefixFree_raw 1).seq fun _ => Varint.prefixFree_groups.seq fun _ =>
    Varint.prefixFree_groups.seq fun stored => (prefixFree_raw stored).seq fun _ => prefixFree_raw _

theorem prefixFree_record (checksum : Bool) : (record checksum).PrefixFree := by
  refine (prefixFree_raw 1).seq fun code => prefixFree_name.seq fun _ => ?_
  split
  · exact prefixFree_raw 0
  · exact prefixFree_payload checksum

theorem prefixFree_records (checksum : Bool) (n : Nat) : (records checksum n).PrefixFree := by
  induction n with
  | zero => exact prefixFree_raw 0
  | succ n ih => exact (prefixFree_record checksum).seq fun _ => ih

theorem prefixFree_file : file.PrefixFree :=
  (prefixFree_raw 6).seq fun _ => (prefixFree_raw _).seq fun _ =>
    Varint.prefixFree_groups.seq fun count => prefixFree_records _ count

/-! ## Putting parts together -/

theorem spans_name {n : Nat} {length bytes : Bytes} (hn : Varint.Groups n length)
    (hlen : bytes.length = n) : name.Spans (length ++ bytes) := .seq hn (spans_raw hlen)

theorem spans_payload {checksum : Bool} (indicator : UInt8) {n m : Nat}
    {length length' stored sum : Bytes} (hn : Varint.Groups n length)
    (hm : Varint.Groups m length') (hstored : stored.length = m)
    (hsum : sum.length = if checksum then 4 else 0) :
    (payload checksum).Spans ([indicator] ++ (length ++ (length' ++ (stored ++ sum)))) :=
  .seq ⟨rfl, rfl⟩ (.seq hn (.seq hm (.seq ⟨rfl, hstored⟩ (spans_raw hsum))))

theorem spans_added (checksum : Bool) {w : Bytes} (hw : name.Spans w) :
    (record checksum).Spans ([Kind.added.code] ++ w) := by
  obtain ⟨b, hb⟩ := hw
  rw [← List.append_nil w]
  exact .seq ⟨rfl, rfl⟩ (.seq hb (by rw [if_pos rfl]; exact spans_raw rfl))

theorem spans_kept {checksum : Bool} (kind : Kind) {w p : Bytes} (hkind : kind ≠ .added)
    (hw : name.Spans w) (hp : (payload checksum).Spans p) :
    (record checksum).Spans ([kind.code] ++ (w ++ p)) := by
  obtain ⟨b, hb⟩ := hw
  have hcode : [kind.code] ≠ [Kind.added.code] := by
    cases kind with
    | added => exact absurd rfl hkind
    | removed => decide
    | modified => decide
  exact .seq ⟨rfl, rfl⟩ (.seq hb (by rwa [if_neg hcode]))

theorem spans_records_cons {checksum : Bool} {n : Nat} {w ws : Bytes}
    (hw : (record checksum).Spans w) (hws : (records checksum n).Spans ws) :
    (records checksum (n + 1)).Spans (w ++ ws) := by
  obtain ⟨b, hb⟩ := hw
  exact .seq hb hws

/-! ## Files that are read -/

theorem spans_nameWritten {s : String} {w : Bytes} (h : NameWritten s w) : name.Spans w := by
  obtain ⟨length, rfl, -, hlength⟩ := h
  exact spans_name hlength.groups rfl

theorem spans_payloadWritten {d : RecordDecoder} {raw w : Bytes} (h : d.PayloadWritten raw w) :
    (payload d.checksum).Spans w := by
  have hlen {sum : Bytes} (hsum : d.SumWritten raw sum) :
      sum.length = if d.checksum then 4 else 0 := by
    unfold RecordDecoder.SumWritten at hsum
    split at hsum
    · next hd => rw [if_pos hd, hsum.1]
    · next hd => rw [if_neg hd, hsum, List.length_nil]
  cases h with
  | raw hl hl' hsum =>
    simpa only [List.append_assoc] using spans_payload _ hl.groups hl'.groups rfl (hlen hsum)
  | packed hbackend hl hl' hraw hsum =>
    simpa only [List.append_assoc] using spans_payload _ hl.groups hl'.groups rfl (hlen hsum)

theorem spans_recordWritten {d : RecordDecoder} {r : Record} {w : Bytes}
    (h : d.RecordWritten r w) : (record d.checksum).Spans w := by
  cases h with
  | added hname => exact spans_added d.checksum (spans_nameWritten hname)
  | removed hname hpayload =>
    rw [List.append_assoc]
    exact spans_kept .removed nofun (spans_nameWritten hname)
      (spans_payloadWritten hpayload)
  | modified hname hpayload =>
    rw [List.append_assoc]
    exact spans_kept .modified nofun (spans_nameWritten hname)
      (spans_payloadWritten hpayload)

theorem spans_recordsWritten {d : RecordDecoder} {rs : List Record} {w : Bytes}
    (h : d.RecordsWritten rs w) : (records d.checksum rs.length).Spans w := by
  induction h with
  | nil => exact spans_raw rfl
  | cons hr _ ih => exact spans_records_cons (spans_recordWritten hr) ih

/-- A head and as many records as it declares. -/
theorem spans_head {flags : UInt8} {codec count body : Bytes} {n : Nat}
    (hcodec : codec.length = if Header.compressedFlag flags then 1 else 0)
    (hcount : Varint.Groups n count) (hbody : (records (Header.checksumFlag flags) n).Spans body) :
    file.Spans (magic ++ [Header.version, flags] ++ codec ++ count ++ body) := by
  rw [List.append_assoc, List.append_assoc]
  exact .seq ⟨rfl, rfl⟩ (.seq ⟨rfl, hcodec⟩ (.seq hcount hbody))

theorem spans_file {o : ReadOptions} {rs : List Record} {w : Bytes} (h : FileWritten o rs w) :
    file.Spans w := by
  obtain ⟨header, head, body, backend, rfl, hhead, -, hcount, hbody, -⟩ := h
  obtain ⟨count, rfl, -, hcodec, hwritten⟩ := hhead
  have hrecords := spans_recordsWritten hbody
  rw [hcount] at hrecords
  have hlen : header.codec.toList.length = if header.isCompressed then 1 else 0 := by
    rw [← hcodec]
    cases header.codec <;> rfl
  exact spans_head hlen hwritten.groups hrecords

end Extent
end CollectionDelta
