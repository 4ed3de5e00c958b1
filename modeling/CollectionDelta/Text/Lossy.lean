import CollectionDelta.Bytes

/-!
Bytes shown as text, whatever they are.

* `Lossy.followers`: what may follow the first byte of a character.
* `Lossy.decode`: characters where the bytes are UTF-8, and one replacement character for each
  longest run of bytes that begins a character and does not end it, or that begins none.
-/

namespace CollectionDelta.Lossy

def replacement : String := "\ufffd"

abbrev ByteRange := UInt8 × UInt8

def continuation : ByteRange := (0x80, 0xBF)

/-- The ranges of the bytes after a first byte; no character begins with a byte without them. -/
def followers (b : UInt8) : Option (List ByteRange) :=
  if b ≤ 0x7F then some []
  else if b < 0xC2 then none
  else if b ≤ 0xDF then some [continuation]
  else if b = 0xE0 then some [(0xA0, 0xBF), continuation]
  else if b = 0xED then some [(0x80, 0x9F), continuation]
  else if b ≤ 0xEF then some [continuation, continuation]
  else if b = 0xF0 then some [(0x90, 0xBF), continuation, continuation]
  else if b ≤ 0xF3 then some [continuation, continuation, continuation]
  else if b = 0xF4 then some [(0x80, 0x8F), continuation, continuation]
  else none

/-- How many bytes fit the ranges, one after the other. -/
def fitting : List ByteRange → Bytes → Nat
  | (low, high) :: ranges, b :: rest => if low ≤ b ∧ b ≤ high then fitting ranges rest + 1 else 0
  | _, _ => 0

def decode : Bytes → String
  | [] => ""
  | first :: rest =>
    match followers first with
    | none => replacement ++ decode rest
    | some ranges =>
      let n := fitting ranges rest
      let shown :=
        if n = ranges.length then (Bytes.text? (first :: rest.take n)).getD replacement
        else replacement
      shown ++ decode (rest.drop n)
termination_by b => b.length
decreasing_by all_goals (simp only [List.length_cons, List.length_drop]; omega)

end CollectionDelta.Lossy
