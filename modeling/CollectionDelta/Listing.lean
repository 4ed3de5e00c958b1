import CollectionDelta.FileTree.Access
import CollectionDelta.Format.Reader
import CollectionDelta.Text.Json
import CollectionDelta.Text.Padding

/-!
The records of a diff file, to be looked at.

* `Obstacle`: where the reading of a file ends early, and how that is worded.
* `Listing`: the head of a file, the records up to the end or the obstacle, and which it was.
* `Listing.ofFile`: reads a listing.
* `Listing.recordLine`, `Listing.headLines`, `Listing.totals`, `Listing.json`: what is shown of it.
-/

namespace CollectionDelta

inductive Obstacle
  | notOpened (path : String) (fault : Fault)
  | head (error : FormatError)
  | repeated (name : String)
  /-- What is wrong with the record that follows `before` others. -/
  | record (before : Nat) (error : FormatError)
  | finish (error : FormatError)
  deriving DecidableEq, Repr

def Obstacle.message : Obstacle → String
  | .notOpened path fault => s!"{path}: {fault.message}"
  | .head error => s!"invalid diff header: {error.message}"
  | .repeated name => s!"duplicate record for {name}"
  | .record before error => s!"record {before}: {error.message}"
  | .finish error => error.message

structure Listing where
  header : Option Header := none
  records : List Record := []
  obstacle : Option Obstacle := none
  deriving DecidableEq, Repr

namespace Listing

/-! ## Reading -/

/-- The end of the records, after which the data must end. -/
def finish (r : Reader) : Option Obstacle :=
  match r.finish.1 with
  | .ok () => none
  | .error e => some (.finish e)

/-- The records that are left up to the first obstacle; `seen` holds the names of those before. -/
def collect (seen : List String) (r : Reader) : List Record × Option Obstacle :=
  match _h : r.next with
  | (.ok none, r') => ([], finish r')
  | (.error e, _) => ([], some (.record seen.length e))
  | (.ok (some record), r') =>
    if record.name ∈ seen then ([], some (.repeated record.name))
    else
      let (more, obstacle) := collect (record.name :: seen) r'
      (record :: more, obstacle)
termination_by r.stream.weight
decreasing_by exact Reader.next_weight_lt _h

def ofReader (r : Reader) : Listing :=
  let (records, obstacle) := collect [] r
  { header := some r.header, records, obstacle }

def ofStream (verify : Bool) (s : Stream) : Listing :=
  match (Reader.start { verify } s).1 with
  | .error e => { obstacle := some (.head e) }
  | .ok r => ofReader r

def ofFile (t : FileTree) (path : String) (verify : Bool) : Listing :=
  match t.openFile path with
  | .error f => { obstacle := some (.notOpened path f) }
  | .ok s => ofStream verify s

/-! ## Showing -/

def kindWidth : Nat := 9
def sizeWidth : Nat := 10

/-- Kind, number of bytes and name; a dash stands for the bytes of a record without any. -/
def recordLine (r : Record) : String :=
  let size := match r.bytes? with
    | some b => toString b.length
    | none => "-"
  s!"{Padding.left kindWidth r.kind.name} {Padding.right sizeWidth size}  {r.name}"

def headLines (h : Header) : List String :=
  let codec := match h.codec with
    | some id => toString id.toNat
    | none => "none"
  [s!"records:     {h.count}", s!"checksums:   {h.hasChecksum}", s!"codec:       {codec}"]

def totals (s : Summary) : String :=
  s!"{s.total} records: {s.added} {Kind.added.name}, {s.removed} {Kind.removed.name}, "
    ++ s!"{s.modified} {Kind.modified.name}"

def recordJson (r : Record) : JsonValue := .object [
  ("bytes", match r.bytes? with
    | some b => .number b.length
    | none => .null),
  ("kind", .text r.kind.name),
  ("name", .text r.name)]

def json (records : List Record) : JsonValue :=
  let s := Summary.ofRecords records
  .object [
    ("added", .number s.added),
    ("modified", .number s.modified),
    ("records", .list (records.map recordJson)),
    ("removed", .number s.removed),
    ("retained_bytes", .number s.retainedBytes)]

end Listing
end CollectionDelta
