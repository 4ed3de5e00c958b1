import CollectionDelta.Collection.Memory
import CollectionDelta.FileTree.Access
import CollectionDelta.Journal

/-!
A directory of a file tree as a collection.

* `Directory`: a root and the names found below it when it was opened.
* `Directory.scan`: every regular file below a directory, named by the way to it; links are not
  followed, and an entry name that is no text is refused.
* `Directory.openBy`, `Directory.openAt`: the scan of a root, in any order of entries and in that of
  the tree; `Directory.toCollection`: the answers over a tree.
-/

namespace CollectionDelta

structure Directory where
  root : String
  names : List String
  closed : Bool := false
  deriving DecidableEq, Repr

namespace Directory

/-- The name of an entry of the directory that a name stands for. -/
def nameBelow (before entry : String) : String :=
  if before = "" then entry else before ++ "/" ++ entry

def notText (dir : String) : Fault := ⟨.invalidData, s!"non UTF-8 file name under {dir}"⟩

/-- The names of what is found at an entry: a directory is entered, by its path and its name, and a
link is passed over. -/
def scanEntry (enter : String → String → Traced Fault (List String)) (path name : String) :
    Node → Traced Fault (List String)
  | .directory => enter path name
  | .file _ => pure [name]
  | .link _ => do
    Traced.say (.skipped path)
    return []

/-- One entry after another, up to the first of which the name is no text. -/
def scanEach (enter : String → String → Traced Fault (List String)) (dir before : String) :
    List (EntryName × Node) → Traced Fault (List String)
  | [] => pure []
  | (.binary _, _) :: _ => Traced.fail (notText dir)
  | (.text entry, node) :: rest => do
    let found ← scanEntry enter (Path.join dir entry) (nameBelow before entry) node
    let more ← scanEach enter dir before rest
    return found ++ more

/-- The names of the regular files below a directory, of which the path and the name are given. Each
level makes the path longer, so that one which is as many levels down as the system takes bytes is
too long; `depth` is what is left of these. -/
def scan (t : FileTree) (order : FileTree.Enumeration t) :
    (depth : Nat) → (dir before : String) → Traced Fault (List String)
  | 0, _, _ => Traced.fail .nameTooLong
  | depth + 1, dir, before => do
    let entries ← Traced.ofExcept (t.listDirectory order dir)
    scanEach (scan t order depth) dir before entries

def openBy (t : FileTree) (order : FileTree.Enumeration t) (root : String) :
    Traced Fault Directory := do
  let names ← scan t order (FileTree.maxPath + 1) root ""
  Traced.say (.scanned names.length root)
  return ⟨root, names.mergeSort Collection.nameLe, false⟩

def openAt (t : FileTree) (root : String) : Traced Fault Directory := openBy t (.stored t) root

def close (d : Directory) : Directory := { d with closed := true }

def guarded {α : Type} (d : Directory) (r : Except Fault α) : Except Fault α :=
  if d.closed then .error Memory.closedFault else r

/-- The collection that the directory is while the tree is `t`: names are those found at the
opening, contents are those of now. -/
def toCollection (t : FileTree) (d : Directory) : Collection where
  names := d.guarded (.ok d.names)
  read n := d.guarded ((ResourceName.path d.root n).bind t.readFile)
  stream n := d.guarded ((ResourceName.path d.root n).bind t.openFile)
  close := .ok ()

end Directory
end CollectionDelta
