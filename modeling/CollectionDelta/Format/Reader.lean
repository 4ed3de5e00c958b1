import CollectionDelta.Checksum.Adler32
import CollectionDelta.Format.Codec
import CollectionDelta.Format.Encoding
import CollectionDelta.Format.Header
import CollectionDelta.Record

/-!
Reading diff files, record by record or whole.

* `ReadOptions`: whether checksums are verified, and a codec besides the built-in ones.
* `RecordDecoder`, `RecordDecoder.record`: how one record is read, once the head is known.
* `Reader`: a file of which some records have been read, with `Reader.next`, `Reader.item`,
  `Reader.items` and `Reader.finish`.
* `readRecords`: a whole file, with no name twice and nothing after the last record.
* `next_weight_lt`: every record uses up some of the stream, whatever count the head declares.
-/

namespace CollectionDelta

structure ReadOptions where
  verify : Bool := true
  backend : Option Backend := none

/-! ## One record -/

/-- What the head of a file and the options say about its records. -/
structure RecordDecoder where
  backend : Option Backend
  checksum : Bool
  verify : Bool

namespace RecordDecoder

/-- The bytes that a stored payload stands for. -/
def unpack (d : RecordDecoder) (name : String) (indicator : UInt8) (rawLength : Nat)
    (stored : Bytes) : Except FormatError Bytes :=
  if indicator = Encoding.rawIndicator then
    if stored.length = rawLength then .ok stored
    else .error (.invalid (.rawLengths name stored.length rawLength))
  else if indicator = Encoding.packedIndicator then
    match d.backend with
    | none => .error (.invalid (.notCompressed name))
    | some b =>
      match b.decompress stored rawLength with
      | .error e => .error e
      | .ok raw =>
        if raw.length = rawLength then .ok raw
        else .error (.invalid (.unpackedLength name raw.length rawLength))
  else .error (.invalid (.unknownIndicator name indicator))

/-- The checksum after a payload is always read, and compared if checksums are verified. -/
def checked (d : RecordDecoder) (name : String) (raw : Bytes) : Decoder Bytes :=
  if d.checksum then do
    let sum ← Decoder.exactly 4
    let expected := Bytes.toNat sum
    let actual := adler32 raw
    if d.verify ∧ actual ≠ expected then
      Decoder.fail (.checksumMismatch name expected actual)
    else return raw
  else return raw

def payload (d : RecordDecoder) (name : String) : Decoder Bytes := do
  let indicator ← Decoder.byte
  let rawLength ← Decoder.varint
  let storedLength ← Decoder.varint
  let stored ← Decoder.gathered storedLength
  let raw ← Decoder.ofExcept (d.unpack name indicator rawLength stored)
  d.checked name raw

def recordName : Decoder String := do
  let length ← Decoder.varint
  if maxNameLength < length then Decoder.invalid (.nameLengthTooLarge length)
  else do
    let b ← Decoder.gathered length
    match Bytes.text? b with
    | some name => return name
    | none => Decoder.invalid .nameNotText

/-- The rest of a record of which the kind's code has been read. -/
def recordOfCode (d : RecordDecoder) (code : UInt8) : Decoder Record :=
  match Kind.ofCode? code with
  | none => Decoder.invalid (.unknownKind code)
  | some kind => do
    let name ← recordName
    match kind with
    | .added => return .added name
    | .removed => do
      let bytes ← d.payload name
      return .removed name bytes
    | .modified => do
      let bytes ← d.payload name
      return .modified name bytes

def record (d : RecordDecoder) : Decoder Record := Decoder.byte >>= d.recordOfCode

theorem shrinks_checked (d : RecordDecoder) (name : String) (raw : Bytes) :
    Decoder.Shrinks (d.checked name raw) := by
  unfold checked
  split
  · refine Decoder.shrinks_bind (Decoder.shrinks_exactly 4) fun _ => ?_
    dsimp only
    split
    · exact Decoder.shrinks_fail _
    · exact Decoder.shrinks_pure _
  · exact Decoder.shrinks_pure _

theorem shrinks_payload (d : RecordDecoder) (name : String) : Decoder.Shrinks (d.payload name) :=
  Decoder.shrinks_bind Decoder.shrinks_byte fun _ =>
  Decoder.shrinks_bind Decoder.shrinks_varint fun _ =>
  Decoder.shrinks_bind Decoder.shrinks_varint fun _ =>
  Decoder.shrinks_bind (Decoder.shrinks_gathered _) fun _ =>
  Decoder.shrinks_bind (Decoder.shrinks_ofExcept _) fun raw => shrinks_checked d name raw

theorem shrinks_recordName : Decoder.Shrinks recordName := by
  refine Decoder.shrinks_bind Decoder.shrinks_varint fun _ => ?_
  split
  · exact Decoder.shrinks_invalid _
  · refine Decoder.shrinks_bind (Decoder.shrinks_gathered _) fun _ => ?_
    split
    · exact Decoder.shrinks_pure _
    · exact Decoder.shrinks_invalid _

theorem shrinks_recordOfCode (d : RecordDecoder) (code : UInt8) :
    Decoder.Shrinks (d.recordOfCode code) := by
  unfold recordOfCode
  split
  · exact Decoder.shrinks_invalid _
  · refine Decoder.shrinks_bind shrinks_recordName fun name => ?_
    split
    · exact Decoder.shrinks_pure _
    · exact Decoder.shrinks_bind (shrinks_payload d name) fun _ => Decoder.shrinks_pure _
    · exact Decoder.shrinks_bind (shrinks_payload d name) fun _ => Decoder.shrinks_pure _

theorem record_weight_lt {d : RecordDecoder} {s t : Stream} {r : Record}
    (h : d.record s = (.ok r, t)) : t.weight < s.weight :=
  Decoder.weight_lt_of_byte_bind (shrinks_recordOfCode d) h

end RecordDecoder

/-! ## A file in the course of reading -/

structure Reader where
  header : Header
  decoder : RecordDecoder
  remaining : Nat
  stream : Stream

namespace Reader

/-- The codec that a head names: the one given with the options if it has that number, else a
built-in one. -/
def backendFor (o : ReadOptions) : Option UInt8 → Except FormatError (Option Backend)
  | none => .ok none
  | some id =>
    match o.backend with
    | some b => if b.id = id then .ok (some b) else builtIn id
    | none => builtIn id
where
  builtIn (id : UInt8) : Except FormatError (Option Backend) :=
    match Codec.builtIn? id with
    | some b => .ok (some b)
    | none => .error (.unsupported (.codec id))

/-- Reads the head of a file. -/
def start (o : ReadOptions) (s : Stream) : Except FormatError Reader × Stream :=
  match Header.decode s with
  | (.error e, t) => (.error e, t)
  | (.ok h, t) =>
    match backendFor o h.codec with
    | .error e => (.error e, t)
    | .ok backend => (.ok ⟨h, ⟨backend, h.hasChecksum, o.verify⟩, h.count, t⟩, t)

/-- The next record, or nothing after the declared number of them. -/
def next (r : Reader) : Except FormatError (Option Record) × Reader :=
  if r.remaining = 0 then (.ok none, r) else
  match r.decoder.record r.stream with
  | (.ok record, t) => (.ok (some record), { r with remaining := r.remaining - 1, stream := t })
  | (.error e, t) => (.error e, { r with stream := t })

/-- As `next`, but nothing follows an error. -/
def item (r : Reader) : Option (Except FormatError Record) × Reader :=
  match r.next with
  | (.ok none, r') => (none, r')
  | (.ok (some record), r') => (some (.ok record), r')
  | (.error e, r') => (some (.error e), { r' with remaining := 0 })

theorem next_weight_lt {r r' : Reader} {record : Record} (h : r.next = (.ok (some record), r')) :
    r'.stream.weight < r.stream.weight := by
  unfold next at h
  split at h
  · cases h
  · split at h
    · next e => cases h; exact RecordDecoder.record_weight_lt e
    · cases h

/-- All items that are left: records, and then at most one error. -/
def items (r : Reader) : List (Except FormatError Record) × Reader :=
  match _h : r.next with
  | (.ok none, r') => ([], r')
  | (.error e, r') => ([.error e], { r' with remaining := 0 })
  | (.ok (some record), r') =>
    let (more, r'') := items r'
    (.ok record :: more, r'')
termination_by r.stream.weight
decreasing_by exact next_weight_lt _h

/-- Reads what records are left without keeping them. -/
def skipAll (r : Reader) : Except FormatError Unit × Reader :=
  match _h : r.next with
  | (.ok none, r') => (.ok (), r')
  | (.error e, r') => (.error e, r')
  | (.ok (some _), r') => skipAll r'
termination_by r.stream.weight
decreasing_by exact next_weight_lt _h

/-- Makes sure that no data follow. -/
def expectEnd (s : Stream) : Except FormatError Unit × Stream :=
  match s.gather 1 with
  | (.ok [], t) => (.ok (), t)
  | (.ok (_ :: _), t) => (.error (.invalid .trailingData), t)
  | (.error f, t) => (.error (.io f), t)

/-- Reads what records are left, after which the data must end. -/
def finish (r : Reader) : Except FormatError Unit × Stream :=
  match r.skipAll with
  | (.error e, r') => (.error e, r'.stream)
  | (.ok (), r') => expectEnd r'.stream

/-- The records that are left, none of which may have a name of `seen` or of another. -/
def distinctRecords (seen : List String) (r : Reader) :
    Except FormatError (List Record) × Reader :=
  match _h : r.next with
  | (.ok none, r') => (.ok [], r')
  | (.error e, r') => (.error e, r')
  | (.ok (some record), r') =>
    if record.name ∈ seen then (.error (.invalid (.duplicateRecord record.name)), r')
    else
      match distinctRecords (record.name :: seen) r' with
      | (.ok more, r'') => (.ok (record :: more), r'')
      | (.error e, r'') => (.error e, r'')
termination_by r.stream.weight
decreasing_by exact next_weight_lt _h

end Reader

/-- Reads a whole file: every record, no name twice, no data after the last record. -/
def readRecords (o : ReadOptions) (s : Stream) : Except FormatError (List Record) × Stream :=
  match Reader.start o s with
  | (.error e, t) => (.error e, t)
  | (.ok r, _) =>
    match r.distinctRecords [] with
    | (.error e, r') => (.error e, r'.stream)
    | (.ok records, r') =>
      match r'.finish with
      | (.error e, t) => (.error e, t)
      | (.ok (), t) => (.ok records, t)

end CollectionDelta
