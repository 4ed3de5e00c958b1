import CollectionDelta.Format.Error

/-!
Compression of payloads.

* `Backend`: a codec under the number that a file's head names it by.
* `Backend.pack`: the compressed form of a payload, where that is worth while and shorter.
-/

namespace CollectionDelta

structure Backend where
  id : UInt8
  /-- Whether a payload is worth the attempt. -/
  worthwhile : Bytes → Bool
  compress : Bytes → Except Fault Bytes
  /-- Gives back a payload of which the length is said to be known; the claim is not trusted. -/
  decompress : Bytes → Nat → Except FormatError Bytes

namespace Backend

/-- Shorter payloads gain nothing. -/
def minimum : Nat := 32

def longEnough (b : Bytes) : Bool := minimum ≤ b.length

def pack (backend : Backend) (raw : Bytes) : Except Fault (Option Bytes) :=
  if backend.worthwhile raw then
    (backend.compress raw).map fun packed =>
      if packed.length < raw.length then some packed else none
  else .ok none

end Backend
end CollectionDelta
