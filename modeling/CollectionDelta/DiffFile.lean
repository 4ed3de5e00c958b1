import CollectionDelta.Buffered
import CollectionDelta.Checksum.Sha256
import CollectionDelta.Collection.Directory
import CollectionDelta.Difference
import CollectionDelta.Format.Reader
import CollectionDelta.Restoration

/-!
Directory trees and diff files in a file tree.

* `FileError`, `FileError.message`: what can go wrong, and its wording.
* `Hashing`: a writer that keeps what another one accepts, to be digested.
* `DiffFile.writeDigested`: what is written to a file through a buffer, and its digest.
* `DiffFile.write`, `DiffFile.read`: a diff file at a path.
* `DiffFile.ofDirectories`: writes the difference of two directories.
* `DiffFile.restore`: rebuilds a base directory from a derived one and a diff file.
-/

namespace CollectionDelta

inductive FileError
  | io (source : Fault)
  | delta (source : DeltaError)
  | format (source : FormatError)
  deriving DecidableEq, Repr

def FileError.message : FileError → String
  | .io source => s!"I/O error: {source.message}"
  | .delta source => s!"diff error: {source.message}"
  | .format source => s!"diff file error: {source.message}"

/-! ## Digesting what is written -/

structure Hashing (σ : Type) where
  inner : σ
  /-- The bytes accepted so far, last one first. -/
  seenRev : Bytes := []

namespace Hashing

variable {σ : Type}

def seen (h : Hashing σ) : Bytes := h.seenRev.reverse

def write [Writer σ] (h : Hashing σ) (b : Bytes) : Except Fault Nat × Hashing σ :=
  match Writer.write h.inner b with
  | (.ok n, t) => (.ok n, ⟨t, (b.take n).reverseAux h.seenRev⟩)
  | (.error f, t) => (.error f, { h with inner := t })

instance [Writer σ] : Writer (Hashing σ) where
  write := write
  patience h := Writer.patience h.inner
  patience_interrupted := by
    intro s t b f h hf
    unfold write at h
    split at h
    · cases h
    · next e => cases h; exact Writer.patience_interrupted e hf

end Hashing

/-! ## Runs over a file tree -/

structure TreeRun (α : Type) where
  journal : Journal := []
  result : Except FileError α
  tree : FileTree

namespace DiffFile

structure Written where
  stats : WriteStats
  size : Nat
  digest : Bytes
  deriving DecidableEq, Repr

/-- How many bytes are held back before they are written to the file. -/
def bufferSize : Nat := 65536

/-- Writes an encoding to an empty file and digests what it hands over. Bytes that are held back at a
failure are tried once more, and what comes of that is ignored. -/
def writeDigested {α σ : Type} [Writer σ] (file : σ) (e : Encoding α) :
    Except FileError (α × Bytes) × σ :=
  match e.write (⟨⟨file, []⟩, []⟩ : Hashing (Buffered bufferSize σ)) with
  | (.error err, w) => (.error (.format err), w.inner.flush.2.inner)
  | (.ok a, w) =>
    match w.inner.flush with
    | (.error f, b) => (.error (.io f), b.flush.2.inner)
    | (.ok (), b) => (.ok (a, Sha256.digest w.seen), b.inner)

/-- Writes a diff file. The file is emptied first, and keeps what was written before a failure. -/
def write (t : FileTree) (path : String) (records : List Record) (o : WriteOptions) :
    Except FileError Written × FileTree :=
  match t.destination path with
  | .error f => (.error (.io f), t)
  | .ok l =>
    let (result, file) := writeDigested Sink.unlimited (Encoding.ofRecords o records)
    let content := file.written
    (result.map fun (stats, digest) => ⟨stats, content.length, digest⟩, t.set l (.file content))

/-- The records of a diff file. -/
def read (t : FileTree) (path : String) (verify : Bool) : Except FileError (List Record) :=
  match t.openFile path with
  | .error f => .error (.io f)
  | .ok s => (readRecords { verify } s).1.mapError .format

/-! ## Writing the difference of two directories -/

structure DiffStats where
  baseResources : Nat
  derivedResources : Nat
  summary : Summary
  written : Written
  deriving DecidableEq, Repr

/-- The difference of two directories, with the numbers of resources that they list. -/
def compare (t : FileTree) (base derived : String) (o : DiffOptions) :
    Traced FileError (Nat × Nat × List Record) := do
  let b ← (Directory.openAt t base).mapError .io
  let d ← (Directory.openAt t derived).mapError .io
  let records ← (Difference.generate o (b.toCollection t) (d.toCollection t)).mapError .delta
  return (b.names.length, d.names.length, records)

def ofDirectories (t : FileTree) (base derived out : String) (o : DiffOptions)
    (w : WriteOptions) : TreeRun DiffStats :=
  let compared := compare t base derived o
  match compared.result with
  | .error e => ⟨compared.journal, .error e, t⟩
  | .ok (b, d, records) =>
    let (result, t') := write t out records w
    ⟨compared.journal, result.map fun w => ⟨b, d, .ofRecords records, w⟩, t'⟩

/-! ## Restoring a directory -/

structure RestoreStats where
  records : Nat
  copied : Nat
  restored : Nat
  skipped : Nat
  outputSize : Nat
  deriving DecidableEq, Repr

/-- Puts a resource below a directory, and makes the directories on the way to it. -/
def placeBelow (root : String) : Restoration.Place FileTree := fun t name bytes =>
  match ResourceName.path root name with
  | .error f => (.error f, t)
  | .ok path =>
    match t.makeDirectories ((Path.parent? path).getD "") with
    | (.error f, u) => (.error f, u)
    | (.ok (), u) =>
      match u.writeFile path bytes with
      | .error f => (.error f, u)
      | .ok v => (.ok (), v)

/-- Restores the base directory of a diff file; the file is read and the derived directory opened
before anything is made. -/
def restore (t : FileTree) (derived diff out : String) : TreeRun RestoreStats :=
  match read t diff true with
  | .error e => ⟨[], .error e, t⟩
  | .ok records =>
    let opened := Directory.openAt t derived
    match opened.result with
    | .error f => ⟨opened.journal, .error (.io f), t⟩
    | .ok d =>
      match t.makeDirectories out with
      | (.error f, u) => ⟨opened.journal, .error (.io f), u⟩
      | (.ok (), u) =>
        let run := Restoration.restore (fun s => d.toCollection s) (placeBelow out) records u
        let result := (run.result.mapError FileError.delta).map fun c =>
          ⟨records.length, c.copied, c.restored, c.skipped, c.bytes⟩
        ⟨opened.journal ++ run.journal, result, run.state⟩

end DiffFile
end CollectionDelta
