import CollectionDelta.Collection.Basic

/-!
Why a difference cannot be made, or base cannot be rebuilt from one.

* `Mismatch`: what makes a difference unfit for a derived collection.
* `DeltaError`, `DeltaError.message`: all causes, and their wording.
* `DeltaError.lookup`: a resource that is missing is told apart from one that cannot be read.
-/

namespace CollectionDelta

inductive Mismatch
  | listedTwice | removedButPresent | missing
  deriving DecidableEq, Repr

def Mismatch.reason : Mismatch → String
  | .listedTwice => "listed more than once in the diff"
  | .removedButPresent => "removed resource is present in derived"
  | .missing => "resource is missing from derived"

inductive DeltaError
  | notFound (side : Side) (name : String) (source : Fault)
  | io (side : Side) (name : String) (source : Fault)
  | compare (name : String) (source : Fault)
  | listing (side : Side) (source : Fault)
  | duplicateName (name : String)
  | close (source : Fault)
  | sink (name : String) (source : Fault)
  | inconsistent (name : String) (mismatch : Mismatch)
  deriving DecidableEq, Repr

namespace DeltaError

def lookup (side : Side) (name : String) (source : Fault) : DeltaError :=
  if source.kind = .notFound then .notFound side name source else .io side name source

def message : DeltaError → String
  | .notFound side name _ => s!"{side.name} resource not found: {name}"
  | .io side name source => s!"I/O error reading {side.name} resource {name}: {source.message}"
  | .compare name source => s!"I/O error comparing resource {name}: {source.message}"
  | .listing side source => s!"cannot list {side.name} collection: {source.message}"
  | .duplicateName name => s!"duplicate resource name in base collection: {name}"
  | .close source => s!"failed to release collection: {source.message}"
  | .sink name source => s!"failed to write restored resource {name}: {source.message}"
  | .inconsistent name mismatch =>
    s!"diff does not match derived collection at {name}: {mismatch.reason}"

end DeltaError
end CollectionDelta
