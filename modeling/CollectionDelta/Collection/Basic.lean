import CollectionDelta.Stream

/-!
Collections of named resources.

* `Collection`: how a collection answers each call; a call's answer does not depend on earlier calls.
* `Collection.nameLe`: the order of names.
* `Side`: which of the two collections of a difference is meant.
-/

namespace CollectionDelta

inductive Side
  | base | derived
  deriving DecidableEq, Repr

def Side.name : Side → String
  | .base => "base"
  | .derived => "derived"

structure Collection where
  names : Except Fault (List String)
  /-- The whole content of a resource. -/
  read : String → Except Fault Bytes
  /-- The content of a resource, to be read as it comes. -/
  stream : String → Except Fault Stream
  close : Except Fault Unit

namespace Collection

/-- The order of names is that of their UTF-8 bytes. -/
def nameLe (a b : String) : Bool := decide (Bytes.ofText a ≤ Bytes.ofText b)

end Collection
end CollectionDelta
