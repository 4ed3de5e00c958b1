import CollectionDelta.Program

/-!
The program as it is started.

The part of the file system that a command line names is taken into a file tree, the program is
run on that tree, and what it changed is carried out.
-/

namespace CollectionDelta.Main

open CommandLine

/-! ## Into a file tree -/

def textOf (l : Location) : String := "/" ++ "/".intercalate (l.filterMap EntryName.text?)

def locationOf (path : String) : Location :=
  ((Path.split path).filter (· ≠ "")).map EntryName.text

/-- A text where a path is asked for. -/
def entryOf (path : String) : IO.FS.DirEntry := { root := path, fileName := "" }

def typeAt (l : Location) : IO (Option IO.FS.FileType) :=
  try
    let m ← (entryOf (textOf l)).root.symlinkMetadata
    return some m.type
  catch _ => return none

/-- Where a link leads; one that leads nowhere is taken to lead to itself. -/
def targetOf (l : Location) : IO Location :=
  try
    let p ← IO.FS.realPath (textOf l)
    return locationOf p.toString
  catch _ => return l

def withAncestors (t : FileTree) (l : Location) : FileTree :=
  (List.range l.length).foldl (fun t n =>
    if (t.node? (l.take n)).isSome then t else t.set (l.take n) .directory) t

/-- A file tree and the locations that were taken into it. -/
structure Snapshot where
  tree : FileTree
  taken : List Location := []

/-- Takes what stands at a location, and everything below it; links are followed if asked for. -/
partial def take (follow : Bool) (s : Snapshot) (l : Location) : IO Snapshot := do
  if l ∈ s.taken then return s
  let s := { s with tree := withAncestors s.tree l, taken := l :: s.taken }
  match ← typeAt l with
  | none => return s
  | some .dir =>
    let mut s := if l = [] then s else { s with tree := s.tree.set l .directory }
    for e in ← (entryOf (textOf l)).root.readDir do
      s ← take follow s (l ++ [.text e.fileName])
    return s
  | some .file =>
    let content ← IO.FS.readBinFile (textOf l)
    return { s with tree := s.tree.set l (.file content.data.toList) }
  | some .symlink =>
    let target ← targetOf l
    let s := { s with tree := s.tree.set l (.link (textOf target)) }
    if follow then take follow s target else return s
  | some .other => return { s with tree := s.tree.set l (.link (textOf l)) }

/-- Takes what a path leads to, and the links on the way. -/
def takeAlong (follow : Bool) (s : Snapshot) (l : Location) : List Part → IO Snapshot
  | [] => take follow { s with taken := [] } l
  | .here :: rest => takeAlong follow s l rest
  | .up :: rest => takeAlong follow s l.dropLast rest
  | .down name :: rest => do
    let next := l ++ [.text name]
    let s := { s with tree := withAncestors s.tree next }
    match ← typeAt next with
    | none => return s
    | some .symlink =>
      let target ← targetOf next
      takeAlong follow { s with tree := s.tree.set next (.link (textOf target)) } target rest
    | some _ => takeAlong follow s next rest

def takePath (follow : Bool) (s : Snapshot) (path : String) : IO Snapshot :=
  takeAlong follow s (s.tree.startOf path) (Path.parts path)

/-- The paths that a request reads, and those that it writes. -/
def pathsOf : Request → List String × List String
  | .diff r => ([r.base, r.derived], r.output.toList)
  | .restore r => ([r.derived, r.diff], r.output.toList)
  | .list r => ([r.input], [])
  | .config => ([], [])

def snapshot (args : List String) : IO FileTree := do
  let current := locationOf (← IO.FS.realPath (← IO.currentDir)).toString
  let start : FileTree := withAncestors { current } (current ++ [.text ""])
  match parse args with
  | .error _ => return start
  | .ok i =>
    let (reads, writes) := pathsOf i.request
    let s ← reads.foldlM (takePath false) { tree := start }
    return (← writes.foldlM (takePath true) s).tree

/-! ## Out of a file tree -/

def carryOut (before after : FileTree) : IO Unit :=
  for (l, n) in after.entries do
    if before.node? l ≠ some n then
      match n with
      | .directory => IO.FS.createDir (textOf l)
      | .file bytes => IO.FS.writeBinFile (textOf l) ⟨bytes.toArray⟩
      | .link _ => pure ()

def start (args : List String) : IO UInt32 := do
  let before ← snapshot args
  let outcome := Program.run before args
  carryOut before outcome.tree
  for line in outcome.out do IO.println line
  for line in outcome.err do IO.eprintln line
  return UInt32.ofNat outcome.code

end CollectionDelta.Main

def main (args : List String) : IO UInt32 := do
  try CollectionDelta.Main.start args
  catch e =>
    IO.eprintln (CollectionDelta.Program.say (toString e))
    return UInt32.ofNat CollectionDelta.Program.failed
