import CollectionDelta.FileTree.Basic
import CollectionDelta.Stream

/-!
Reaching the nodes of a file tree by path.

* `Fault.noSuchFile` and the like: the ways in which a path fails.
* `FileTree.walkBy`, `FileTree.walk`, `FileTree.locate`: a path followed through directories and
  links.
* `FileTree.Enumeration`, `FileTree.listDirectory`: the entries of a directory, in an order that is
  the system's own.
* `FileTree.readFile`, `openFile`, `writeFile`: the content of files.
* `FileTree.makeDirectory`, `makeDirectories`: new directories.
* `FileTree.pathExists`, `isDirectory`, `isEmptyDirectory`: questions that cannot fail.
-/

namespace CollectionDelta

namespace Fault

def noSuchFile : Fault := ⟨.notFound, "No such file or directory (os error 2)"⟩
def fileExists : Fault := ⟨.alreadyExists, "File exists (os error 17)"⟩
def notADirectory : Fault := ⟨.notADirectory, "Not a directory (os error 20)"⟩
def isADirectory : Fault := ⟨.isADirectory, "Is a directory (os error 21)"⟩
def nameTooLong : Fault := ⟨.invalidFileName, "File name too long (os error 36)"⟩
def tooManyLinks : Fault := ⟨.linkLoop, "Too many levels of symbolic links (os error 40)"⟩
def nulInPath : Fault := ⟨.invalidInput, "file name contained an unexpected NUL byte"⟩

end Fault

namespace FileTree

/-- The longest entry name and the longest path, in bytes, and the most links on one way. -/
def maxEntryName : Nat := 255
def maxPath : Nat := 4095
def maxLinks : Nat := 40

/-! ## Following paths -/

/-- What a walk does at a last part of which there is no entry. -/
inductive Missing
  | fails | allowed
  deriving DecidableEq, Repr

def startOf (t : FileTree) (path : String) : Location :=
  if Path.isAbsolute path then [] else t.current

/-- Goes from a location along parts; `follow` goes on from a link that is met, along the parts of its
target and those that are left. Every part but the last must lead to a directory; the last may be
missing if that is allowed. -/
def walkBy (t : FileTree) (missing : Missing)
    (follow : Location → List Part → Except Fault Location) (at_ : Location) :
    List Part → Except Fault Location
  | [] => .ok at_
  | part :: rest =>
    if t.node? at_ ≠ some .directory then .error .notADirectory else
    match part with
    | .here => walkBy t missing follow at_ rest
    | .up => walkBy t missing follow at_.dropLast rest
    | .down name =>
      if maxEntryName < name.utf8ByteSize then .error .nameTooLong else
      let next := at_ ++ [.text name]
      match t.node? next with
      | none =>
        if rest = [] ∧ missing = .allowed then .ok next else .error .noSuchFile
      | some (.link target) =>
        follow (if Path.isAbsolute target then [] else at_) (Path.parts target ++ rest)
      | some _ => walkBy t missing follow next rest

/-- Goes from a location along parts, and through at most `links` links. -/
def walk (t : FileTree) (missing : Missing) :
    (links : Nat) → Location → List Part → Except Fault Location
  | 0 => t.walkBy missing fun _ _ => .error .tooManyLinks
  | links + 1 => t.walkBy missing (t.walk missing links)

/-- A path must be a text that the system takes. -/
def checkPath (path : String) : Except Fault Unit :=
  if path.toList.contains '\x00' then .error .nulInPath
  else if path = "" then .error .noSuchFile
  else if maxPath < path.utf8ByteSize then .error .nameTooLong
  else .ok ()

/-- Where a path leads, links followed; a final slash asks for a directory. -/
def locate (t : FileTree) (path : String) : Except Fault Location := do
  checkPath path
  let l ← walk t .fails maxLinks (t.startOf path) (Path.parts path)
  if Path.endsInSlash path ∧ t.node? l ≠ some .directory then .error .notADirectory
  else return l

def stat (t : FileTree) (path : String) : Except Fault Node := do
  let l ← t.locate path
  match t.node? l with
  | some n => return n
  | none => .error .noSuchFile

def pathExists (t : FileTree) (path : String) : Bool := (t.stat path).isOk

def isDirectory (t : FileTree) (path : String) : Bool :=
  match t.stat path with
  | .ok .directory => true
  | _ => false

/-- Where a directory lies, to be listed. -/
def locateDirectory (t : FileTree) (path : String) : Except Fault Location := do
  let l ← t.locate path
  if t.node? l = some .directory then return l else .error .notADirectory

/-- The order in which each directory is listed. -/
structure Enumeration (t : FileTree) where
  entries : Location → List (EntryName × Node)
  perm : ∀ l, (entries l).Perm (t.children l)

/-- The order of the entries of the tree. -/
def Enumeration.stored (t : FileTree) : Enumeration t := ⟨t.children, fun _ => .refl _⟩

def listDirectory (t : FileTree) (order : Enumeration t) (path : String) :
    Except Fault (List (EntryName × Node)) :=
  (t.locateDirectory path).map order.entries

def isEmptyDirectory (t : FileTree) (path : String) : Bool :=
  match t.locateDirectory path with
  | .ok l => (t.below l).isEmpty
  | .error _ => false

/-! ## Files -/

/-- The stream over what a path leads to; a directory can be opened, but not read. -/
def openFile (t : FileTree) (path : String) : Except Fault Stream := do
  match ← t.stat path with
  | .file bytes => return .ofBytes bytes
  | _ => return .failing .isADirectory

def readFile (t : FileTree) (path : String) : Except Fault Bytes := do
  match ← t.stat path with
  | .file bytes => return bytes
  | _ => .error .isADirectory

/-- Where a file is to be written: an existing file, or a new entry of an existing directory. -/
def destination (t : FileTree) (path : String) : Except Fault Location := do
  checkPath path
  let parts := Path.parts path
  if Path.endsInSlash path then
    let l ← walk t .fails maxLinks (t.startOf path) parts.dropLast
    if t.node? l = some .directory then .error .isADirectory else .error .notADirectory
  else
    let l ← walk t .allowed maxLinks (t.startOf path) parts
    if t.node? l = some .directory then .error .isADirectory else return l

/-- Replaces the content of a file, which is made if it does not exist. -/
def writeFile (t : FileTree) (path : String) (bytes : Bytes) : Except Fault FileTree := do
  let l ← t.destination path
  return t.set l (.file bytes)

/-! ## Directories -/

/-- Makes one directory in an existing one. -/
def makeDirectory (t : FileTree) (path : String) : Except Fault FileTree := do
  checkPath path
  let parts := Path.parts path
  let parent ← walk t .fails maxLinks (t.startOf path) parts.dropLast
  if t.node? parent ≠ some .directory then .error .notADirectory else
  match parts.getLast? with
  | some (.down name) =>
    if maxEntryName < name.utf8ByteSize then .error .nameTooLong else
    let l := parent ++ [.text name]
    match t.node? l with
    | some _ => .error .fileExists
    | none => return t.set l .directory
  | _ => .error .fileExists

/-- One attempt; a directory that is there already is as good as a new one. -/
def ensureDirectory (t : FileTree) (path : String) : Except Fault FileTree :=
  match t.makeDirectory path with
  | .ok u => .ok u
  | .error f => if t.isDirectory path then .ok t else .error f

/-- Makes a directory, and before it those on the way that are missing; what was made before a
failure stays. `depth` bounds the number of directories on the way. -/
def makeDirectoriesWithin (t : FileTree) (path : String) :
    (depth : Nat) → Except Fault Unit × FileTree
  | 0 => (.ok (), t)
  | depth + 1 =>
    if path = "" then (.ok (), t) else
    match t.ensureDirectory path with
    | .ok u => (.ok (), u)
    | .error f =>
      if f.kind ≠ .notFound then (.error f, t) else
      match Path.parent? path with
      | none => (.error f, t)
      | some parent =>
        match t.makeDirectoriesWithin parent depth with
        | (.error e, u) => (.error e, u)
        | (.ok (), u) =>
          match u.ensureDirectory path with
          | .ok v => (.ok (), v)
          | .error e => (.error e, u)

def makeDirectories (t : FileTree) (path : String) : Except Fault Unit × FileTree :=
  t.makeDirectoriesWithin path (path.length + 1)

/-- Makes a symbolic link. -/
def makeLink (t : FileTree) (path target : String) : Except Fault FileTree := do
  let parts := Path.parts path
  let parent ← walk t .fails maxLinks (t.startOf path) parts.dropLast
  match parts.getLast? with
  | some (.down name) => return t.set (parent ++ [.text name]) (.link target)
  | _ => .error .fileExists

end FileTree
end CollectionDelta
