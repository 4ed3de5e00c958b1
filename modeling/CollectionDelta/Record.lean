import CollectionDelta.Bytes

/-!
What a difference is made of.

* `Kind`: how a resource of base and one of derived of the same name relate, with its code and name.
* `Record`: one resource that differs, with base's bytes where base has any.
* `Summary`: how many records of each kind, and how many bytes are kept.
-/

namespace CollectionDelta

inductive Kind
  | added | removed | modified
  deriving DecidableEq, Repr

namespace Kind

def all : List Kind := [.added, .removed, .modified]

def code : Kind → UInt8
  | .added => 0
  | .removed => 1
  | .modified => 2

def ofCode? : UInt8 → Option Kind
  | 0 => some .added
  | 1 => some .removed
  | 2 => some .modified
  | _ => none

def name : Kind → String
  | .added => "ADDED"
  | .removed => "REMOVED"
  | .modified => "MODIFIED"

/-- Kinds are ordered by their codes. -/
def le (a b : Kind) : Bool := decide (a.code ≤ b.code)

theorem ofCode?_code (k : Kind) : ofCode? k.code = some k := by cases k <;> rfl

theorem code_of_ofCode? {c : UInt8} {k : Kind} (h : ofCode? c = some k) : k.code = c := by
  unfold ofCode? at h
  split at h <;> cases h <;> rfl

end Kind

/-- A resource that base and derived do not share: `added` is derived's alone, `removed` and
`modified` keep the bytes it has in base. -/
inductive Record
  | added (name : String)
  | removed (name : String) (bytes : Bytes)
  | modified (name : String) (bytes : Bytes)
  deriving DecidableEq, Repr

namespace Record

def kind : Record → Kind
  | added _ => .added
  | removed _ _ => .removed
  | modified _ _ => .modified

def name : Record → String
  | added n => n
  | removed n _ => n
  | modified n _ => n

def bytes? : Record → Option Bytes
  | added _ => none
  | removed _ b => some b
  | modified _ b => some b

/-- Bytes of base that the record keeps. -/
def size (r : Record) : Nat := (r.bytes?.map List.length).getD 0

end Record

structure Summary where
  added : Nat := 0
  removed : Nat := 0
  modified : Nat := 0
  retainedBytes : Nat := 0
  deriving DecidableEq, Repr

namespace Summary

def count (s : Summary) (r : Record) : Summary :=
  let s := { s with retainedBytes := s.retainedBytes + r.size }
  match r.kind with
  | .added => { s with added := s.added + 1 }
  | .removed => { s with removed := s.removed + 1 }
  | .modified => { s with modified := s.modified + 1 }

def ofRecords (rs : List Record) : Summary := rs.foldl count {}

def total (s : Summary) : Nat := s.added + s.removed + s.modified

end Summary
end CollectionDelta
