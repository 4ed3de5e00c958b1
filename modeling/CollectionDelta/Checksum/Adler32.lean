import CollectionDelta.Bytes

/-!
The Adler-32 checksum (RFC 1950).

* `Adler32.State`: one plus the sum of the bytes, and the sum of those sums, both modulo 65521.
* `adler32`: the checksum of a byte string, as a number below 2^32.
-/

namespace CollectionDelta

namespace Adler32

/-- The largest prime below 2^16. -/
def modulus : Nat := 65521

structure State where
  sum : Nat := 1
  sums : Nat := 0
  deriving DecidableEq, Repr

def State.add (s : State) (x : UInt8) : State :=
  let sum := (s.sum + x.toNat) % modulus
  ⟨sum, (s.sums + sum) % modulus⟩

def State.value (s : State) : Nat := 65536 * s.sums + s.sum

end Adler32

def adler32 (b : Bytes) : Nat := (b.foldl Adler32.State.add {}).value

end CollectionDelta
