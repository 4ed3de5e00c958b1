import CollectionDelta.Checksum.Adler32
import CollectionDelta.Format.Backend
import CollectionDelta.Format.Header
import CollectionDelta.Record

/-!
The written form of a list of records.

* `WriteOptions`, `WriteStats`: how records are written, and what that came to.
* `Encoding`: the pieces in which a file is written, up to its end or to the failure that ends it.
* `Encoding.ofRecords`: the encoding of a file; `Encoding.write` hands it to a writer.
-/

namespace CollectionDelta

structure WriteOptions where
  backend : Option Backend := none
  checksum : Bool := true

structure WriteStats where
  records : Nat := 0
  payloadBytes : Nat := 0
  storedBytes : Nat := 0
  compressedPayloads : Nat := 0
  deriving DecidableEq, Repr

/-- The pieces written, in order, and how the writing ends. -/
structure Encoding (α : Type) where
  pieces : List Bytes
  result : Except FormatError α

namespace Encoding

/-- Payloads stored as they are. -/
def rawIndicator : UInt8 := 0

/-- Payloads stored in compressed form. -/
def packedIndicator : UInt8 := 1

/-- A payload in its stored form. -/
structure Stored where
  indicator : UInt8
  bytes : Bytes
  deriving DecidableEq, Repr

def store (backend : Option Backend) (raw : Bytes) : Except Fault Stored :=
  match backend with
  | none => .ok ⟨rawIndicator, raw⟩
  | some b => (b.pack raw).map fun
    | some packed => ⟨packedIndicator, packed⟩
    | none => ⟨rawIndicator, raw⟩

def payloadPieces (checksum : Bool) (raw : Bytes) (stored : Stored) : List Bytes :=
  [[stored.indicator], Varint.encode raw.length, Varint.encode stored.bytes.length, stored.bytes]
    ++ (if checksum then [Bytes.ofNat 4 (adler32 raw)] else [])

def namePieces (r : Record) : List Bytes :=
  let name := Bytes.ofText r.name
  [[r.kind.code], Varint.encode name.length, name]

def addPayload (s : WriteStats) (raw : Bytes) (stored : Stored) : WriteStats where
  records := s.records + 1
  payloadBytes := s.payloadBytes + raw.length
  storedBytes := s.storedBytes + stored.bytes.length
  compressedPayloads :=
    s.compressedPayloads + if stored.indicator = packedIndicator then 1 else 0

/-- One record: its kind and name, then its payload if it has one. -/
def ofRecord (o : WriteOptions) (s : WriteStats) (r : Record) : Encoding WriteStats :=
  let length := (Bytes.ofText r.name).length
  if maxNameLength < length then ⟨[], .error (.invalid (.nameTooLong length))⟩ else
  match r.bytes? with
  | none => ⟨namePieces r, .ok { s with records := s.records + 1 }⟩
  | some raw =>
    match store o.backend raw with
    | .error f => ⟨namePieces r, .error (.io f)⟩
    | .ok stored =>
      ⟨namePieces r ++ payloadPieces o.checksum raw stored, .ok (addPayload s raw stored)⟩

/-- Records in order, up to the first that cannot be written. -/
def ofList (o : WriteOptions) (s : WriteStats) : List Record → Encoding WriteStats
  | [] => ⟨[], .ok s⟩
  | r :: rest =>
    match ofRecord o s r with
    | ⟨pieces, .error e⟩ => ⟨pieces, .error e⟩
    | ⟨pieces, .ok t⟩ =>
      let more := ofList o t rest
      ⟨pieces ++ more.pieces, more.result⟩

def header (o : WriteOptions) (records : List Record) : Header where
  flags := Header.flagsOf o.checksum o.backend.isSome
  codec := o.backend.map Backend.id
  count := records.length

/-- A whole file: the head and then every record. -/
def ofRecords (o : WriteOptions) (records : List Record) : Encoding WriteStats :=
  let body := ofList o {} records
  ⟨(header o records).pieces ++ body.pieces, body.result⟩

/-- All bytes of an encoding. -/
def bytes {α : Type} (e : Encoding α) : Bytes := e.pieces.flatten

/-- Hands the pieces to a writer; a write that fails ends the writing. -/
def write {α σ : Type} [Writer σ] (e : Encoding α) (w : σ) : Except FormatError α × σ :=
  match Writer.writeEach w e.pieces with
  | (.error f, v) => (.error (.io f), v)
  | (.ok (), v) => (e.result, v)

end Encoding
end CollectionDelta
