import CollectionDelta.Collection.Basic

/-!
A collection held in memory.

* `Memory`: the pushes so far; a name may be pushed again, and then its last bytes count.
* `Memory.toCollection`: the pushes seen as a collection, which answers nothing once closed.
* `get?_push`, `names_push`: what a push changes.
-/

namespace CollectionDelta

structure Memory where
  /-- Pushed names and bytes, last one first. -/
  pushes : List (String × Bytes) := []
  closed : Bool := false
  deriving DecidableEq, Repr

namespace Memory

def push (m : Memory) (name : String) (bytes : Bytes) : Memory :=
  { m with pushes := (name, bytes) :: m.pushes }

def ofList (entries : List (String × Bytes)) : Memory :=
  entries.foldl (fun m e => m.push e.1 e.2) {}

def close (m : Memory) : Memory := { m with closed := true }

/-- The number of pushes, repeated names included. -/
def size (m : Memory) : Nat := m.pushes.length

def isEmpty (m : Memory) : Bool := m.pushes.isEmpty

/-- The bytes last pushed under a name. -/
def get? (m : Memory) (name : String) : Option Bytes := m.pushes.lookup name

/-- Every pushed name, in order and with repetitions. -/
def names (m : Memory) : List String := (m.pushes.map Prod.fst).reverse

/-- One pair for each push, in order, with the bytes last pushed under its name. -/
def toList (m : Memory) : List (String × Bytes) :=
  m.names.map fun n => (n, (m.get? n).getD [])

def closedFault : Fault := ⟨.other, "collection is closed"⟩

def missingFault (name : String) : Fault := ⟨.notFound, s!"no such resource: {name}"⟩

/-- Hands out a result unless the collection is closed. -/
def guarded {α : Type} (m : Memory) (r : Except Fault α) : Except Fault α :=
  if m.closed then .error closedFault else r

def lookup (m : Memory) (name : String) : Except Fault Bytes :=
  match m.get? name with
  | some b => .ok b
  | none => .error (missingFault name)

def toCollection (m : Memory) : Collection where
  names := m.guarded (.ok m.names)
  read n := m.guarded (m.lookup n)
  stream n := m.guarded ((m.lookup n).map .ofBytes)
  close := .ok ()

theorem names_push (m : Memory) (n : String) (b : Bytes) :
    (m.push n b).names = m.names ++ [n] := by simp [push, names]

theorem get?_push (m : Memory) (n n' : String) (b : Bytes) :
    (m.push n b).get? n' = if n' = n then some b else m.get? n' := by
  by_cases h : n' = n
  · subst h; simp [get?, push]
  · simp [get?, push, List.lookup_cons, h, beq_eq_false_iff_ne.2 h]

end Memory
end CollectionDelta
