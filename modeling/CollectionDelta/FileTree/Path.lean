import CollectionDelta.Bytes
import CollectionDelta.Fault
import CollectionDelta.Text.Quoted

/-!
Paths as text.

* `Part`, `Path.parts`: a path as a walk; empty parts between slashes are skipped.
* `Path.join`: a path and something below it, with one slash between.
* `Path.components`: what a path is made of; `Path.push`: a path extended by another one.
* `Path.parent?`: a path without its last part.
* `ResourceName.path`: where the resource of a name lies below a root; names that would not lie
  there are refused.
-/

namespace CollectionDelta

/-- One step of a walk. -/
inductive Part
  | here
  | up
  | down (name : String)
  deriving DecidableEq, Repr

/-- What a path is made of: the root, if it starts there, and parts. -/
inductive Component
  | root
  | part (part : Part)
  deriving DecidableEq, Repr

namespace Path

/-- The texts between slashes, empty ones included. -/
def split (s : String) : List String := (s.toList.splitOn '/').map String.ofList

def part (s : String) : Part :=
  if s = "." then .here else if s = ".." then .up else .down s

def parts (s : String) : List Part := ((split s).filter (· ≠ "")).map part

def isAbsolute (s : String) : Bool := s.toList.head? = some '/'

/-- A path that ends in a slash means a directory. -/
def endsInSlash (s : String) : Bool := s.toList.getLast? = some '/'

def separator (root : String) : String := if root = "" ∨ endsInSlash root then "" else "/"

def join (root below : String) : String := root ++ separator root ++ below

/-- The parts that count when a path is cut: a dot does only at the beginning. -/
def essential (s : String) : List String :=
  let leading := (split s).takeWhile (· = ".") |>.take 1
  leading ++ ((split s).drop leading.length).filter fun p => p ≠ "" ∧ p ≠ "."

def components (s : String) : List Component :=
  (if isAbsolute s then [.root] else []) ++ (essential s).map fun p => .part (part p)

/-- A path extended by another one; an absolute one takes its place. -/
def push (path more : String) : String := if isAbsolute more then more else join path more

/-- The path without its last part; the root and the empty path have no parent. -/
def parent? (s : String) : Option String :=
  match essential s with
  | [] => none
  | p :: ps =>
    some ((if isAbsolute s then "/" else "") ++ "/".intercalate (p :: ps).dropLast)

end Path

namespace ResourceName

/-- A part between slashes that neither stays nor leaves. -/
def isPlain (s : String) : Bool := s ≠ "" && s ≠ "." && s ≠ ".."

def invalid (name : String) : Fault :=
  ⟨.invalidInput, s!"invalid resource name: {Quoted.encode name}"⟩

/-- A path extended by the parts of a name, each of which must be a path of one component that leads
down. -/
def extend (name : String) : (path : String) → (parts : List String) → Except Fault String
  | path, [] => .ok path
  | path, part :: rest =>
    match Path.components part with
    | [.part (.down p)] => extend name (Path.push path p) rest
    | _ => .error (invalid name)

/-- The path of a resource below a root. -/
def path (root name : String) : Except Fault String :=
  if name = "" ∨ '\\' ∈ name.toList then .error (invalid name)
  else extend name root (Path.split name)

end ResourceName
end CollectionDelta
