import CollectionDelta.CommandLine.Invocation
import CollectionDelta.CommandLine.Usage
import CollectionDelta.DiffFile
import CollectionDelta.Listing

/-!
The command-line program, as a function of the file tree it finds and its arguments.

* `Outcome`: the exit code, the lines on both outputs, and the file tree that is left.
* `Program.mayWrite`: what may be written without being forced.
* `Program.diff`, `Program.restore`, `Program.list`, `Program.config`: the commands.
* `Program.run`: the whole program.
-/

namespace CollectionDelta

open CommandLine

structure Outcome where
  code : Nat
  out : List String := []
  err : List String := []
  tree : FileTree

namespace Program

def succeeded : Nat := 0
def failed : Nat := 1
def misused : Nat := 2

/-- A message under the program's name. -/
def say (message : String) : String := s!"{Usage.program}: {message}"

/-! ## Remarks -/

/-- Remarks are shown up to this level. -/
def threshold (m : Manner) : Level :=
  if m.quiet then .error
  else match m.verbosity with
    | 0 => .warn
    | 1 => .info
    | _ => .debug

def levelWidth : Nat := 5

/-- A text with the lines after the first moved in. -/
def indented (s : String) : String :=
  String.ofList (s.toList.flatMap fun c => if c = '\n' then '\n' :: List.replicate 4 ' ' else [c])

def remarkLine (r : Remark) : String :=
  s!"[{Padding.left levelWidth r.level.name}] {indented r.message}"

def remarkLines (m : Manner) (j : Journal) : List String :=
  (j.remarks.filter fun r => r.level.rank ≤ (threshold m).rank).map remarkLine

/-! ## What is written -/

/-- What does not exist may be made, and an empty directory filled; anything else only by force. -/
def mayWrite (t : FileTree) (m : Manner) (path : String) : Bool :=
  m.force || !t.pathExists path || t.isEmptyDirectory path

def needsForce (path : String) : String := s!"to overwrite output {path}, use --force"

/-- The outcome of a command that made nothing. -/
def refused (t : FileTree) (message : String) : Outcome :=
  { code := failed, err := [say message], tree := t }

/-- The outcome of a run: its remarks, then how it ended. -/
def ofRun {α : Type} (m : Manner) (failure : String) (report : α → List String)
    (run : TreeRun α) : Outcome :=
  let remarks := remarkLines m run.journal
  match run.result with
  | .error e => { code := failed, err := remarks ++ [say s!"{failure}: {e.message}"], tree := run.tree }
  | .ok a => { code := succeeded, err := remarks ++ report a, tree := run.tree }

/-! ## diff -/

def diffJson (s : DiffFile.DiffStats) : JsonValue := .object [
  ("added", .number s.summary.added),
  ("base_resources", .number s.baseResources),
  ("derived_resources", .number s.derivedResources),
  ("diff_sha256", .text (Hex.lower s.written.digest)),
  ("diff_size", .number s.written.size),
  ("modified", .number s.summary.modified),
  ("payload_bytes", .number s.written.stats.payloadBytes),
  ("removed", .number s.summary.removed),
  ("stored_bytes", .number s.written.stats.storedBytes)]

def diffReport (m : Manner) (s : DiffFile.DiffStats) : List String :=
  let w := s.written
  (if m.quiet then [] else [say <|
    s!"{s.summary.added} added, {s.summary.removed} removed, {s.summary.modified} modified "
      ++ s!"({s.baseResources} base / {s.derivedResources} derived resources)"])
  ++ (if m.verbosity = 0 then [] else [
    say <| s!"payload {w.stats.payloadBytes} bytes, stored {w.stats.storedBytes} bytes "
      ++ s!"({w.stats.compressedPayloads} compressed), diff size {w.size}",
    say s!"diff sha256 {Hex.lower w.digest}"])
  ++ (if m.json then [(diffJson s).pretty] else [])

def diff (t : FileTree) (m : Manner) (r : DiffRequest) : Outcome :=
  match r.output with
  | none => refused t "diff requires an output file"
  | some out =>
    if mayWrite t m out then
      ofRun m "diff error" (diffReport m)
        (DiffFile.ofDirectories t r.base r.derived out r.diffOptions r.writeOptions)
    else refused t (needsForce out)

/-! ## restore -/

def restoreJson (s : DiffFile.RestoreStats) : JsonValue := .object [
  ("copied", .number s.copied),
  ("output_size", .number s.outputSize),
  ("records", .number s.records),
  ("restored", .number s.restored),
  ("skipped", .number s.skipped)]

def restoreReport (m : Manner) (s : DiffFile.RestoreStats) : List String :=
  (if m.quiet then [] else [say <|
    s!"restored {s.copied + s.restored} files ({s.copied} copied, {s.restored} from diff), "
      ++ s!"{s.outputSize} bytes"])
  ++ (if m.json then [(restoreJson s).pretty] else [])

def restore (t : FileTree) (m : Manner) (r : RestoreRequest) : Outcome :=
  match r.output with
  | none => refused t "restore requires an output directory"
  | some out =>
    if mayWrite t m out then
      ofRun m "restore error" (restoreReport m) (DiffFile.restore t r.derived r.diff out)
    else refused t (needsForce out)

/-! ## show -/

/-- The lines on the standard output: the head if asked for, and a line for each record, unless
the records are reported as JSON. -/
def listingLines (m : Manner) (l : Listing) : List String :=
  (match l.header with
    | some h => if m.verbosity = 0 then [] else Listing.headLines h
    | none => [])
  ++ (if m.json then [] else l.records.map Listing.recordLine)

def listingReport (m : Manner) (l : Listing) : List String :=
  match l.obstacle with
  | some o => [say o.message]
  | none =>
    if m.json then [(Listing.json l.records).pretty]
    else if m.quiet then []
    else [say (Listing.totals (.ofRecords l.records))]

def list (t : FileTree) (m : Manner) (r : ListRequest) : Outcome :=
  let l := Listing.ofFile t r.input r.verify
  { code := if l.obstacle.isSome then failed else succeeded
    out := listingLines m l
    err := listingReport m l
    tree := t }

/-! ## config -/

/-- What the program was built with. -/
def configLines : List String := [
  s!"{Usage.program} version {Usage.version} (Rust)",
  "PAYLOAD_LZMA=1",
  "PAYLOAD_ZLIB=1",
  "ADLER32=1",
  "FILE_IO=1",
  s!"DEFAULT_LEVEL={Codec.defaultLevel}",
  s!"DEFAULT_CHUNK_SIZE={Comparator.defaultChunk}",
  s!"MAX_NAME_LEN={maxNameLength}"]

def config (t : FileTree) : Outcome := { code := succeeded, err := configLines, tree := t }

/-! ## The program -/

def perform (t : FileTree) (i : Invocation) : Outcome :=
  match i.request with
  | .diff r => diff t i.manner r
  | .restore r => restore t i.manner r
  | .list r => list t i.manner r
  | .config => config t

/-- Help and the version are answers; all else that is not an invocation is a misuse. -/
def halted (t : FileTree) : Halt → Outcome
  | .help topic => { code := succeeded, out := [Usage.help topic], tree := t }
  | .version => { code := succeeded, out := [s!"{Usage.program} {Usage.version}"], tree := t }
  | .silence => { code := misused, err := [Usage.help none], tree := t }
  | h => { code := misused, err := [Usage.complaint h], tree := t }

def run (t : FileTree) (args : List String) : Outcome :=
  match parse args with
  | .ok i => perform t i
  | .error h => halted t h

end Program
end CollectionDelta
