import CollectionDelta.Deflate.Compress
import CollectionDelta.Deflate.Inflate
import CollectionDelta.Format.Backend
import CollectionDelta.Lzma.Decode
import CollectionDelta.Lzma.Encode

/-!
The codecs that need not be brought along.

* `Codec.lzma`, `Codec.zlib`: the built-in backends; both stop one byte after the length that a
  payload is said to have.
* `Codec.builtIn?`: a built-in backend by its number.
* `Compression`: the ways in which a file can be written.
-/

namespace CollectionDelta

namespace Codec

def array (b : Bytes) : ByteArray := ⟨b.toArray⟩

def lzmaId : UInt8 := 2
def zlibId : UInt8 := 3

/-- The greatest length, which 64 bits count. -/
def maxLength : Nat := 0xFFFFFFFFFFFFFFFF

/-- One byte more than a payload is said to have is enough to see that it has more. -/
def cap (rawLength : Nat) : Nat := min (rawLength + 1) maxLength

def inflated (stored : Bytes) (rawLength : Nat) : Except FormatError Bytes :=
  match Deflate.inflate (array stored) (cap rawLength) with
  | .ok out => .ok (out.data.toList.take (cap rawLength))
  | .error .corrupt => .error (.invalid (.inBackend "Zlib decompression failed: corrupt deflate stream"))
  | .error _ => .error (.invalid (.inBackend "Zlib decompression failed: incomplete deflate stream"))

def zlib (level : Nat) : Backend where
  id := zlibId
  worthwhile := Backend.longEnough
  compress raw := .ok (Deflate.compress (min level 9) (array raw)).data.toList
  decompress := inflated

def unpackedLzma (stored : Bytes) (rawLength : Nat) : Except FormatError Bytes :=
  match Lzma.decode (array stored) (cap rawLength) with
  | .error .invalid => .error (.invalid (.inBackend "LZMA decompression failed"))
  | .error .tooLong => .error tooLong
  | .ok out => if cap rawLength < out.size then .error tooLong else .ok out.data.toList
where
  tooLong : FormatError := .invalid (.inBackend
    "LZMA decompression failed: io error: decompressed payload exceeds declared length")

def lzma : Backend where
  id := lzmaId
  worthwhile := Backend.longEnough
  compress raw := .ok (Lzma.encode (array raw)).data.toList
  decompress := unpackedLzma

def defaultLevel : Nat := 6

def builtIn? (id : UInt8) : Option Backend :=
  if id = lzmaId then some lzma else if id = zlibId then some (zlib defaultLevel) else none

end Codec

/-- How the payloads of a file are stored. -/
inductive Compression
  | none
  | lzma
  | zlib (level : Nat)
  | custom (backend : Backend)

namespace Compression

def backend? : Compression → Option Backend
  | none => .none
  | lzma => some Codec.lzma
  | zlib level => some (Codec.zlib level)
  | custom backend => some backend

def describe : Compression → String
  | none => "None"
  | lzma => "Lzma"
  | zlib level => s!"Zlib \x7b level: {level} \x7d"
  | custom backend => s!"Custom(id={backend.id.toNat})"

end Compression
end CollectionDelta
