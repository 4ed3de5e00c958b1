import CollectionDelta.Format.Decoder
import CollectionDelta.Sink

/-!
The head of a diff file: magic, version, flags, the codec of the payloads if any, and the number of
records.

* `Header`, `Header.pieces`: the head and its written form, in the pieces in which it is written.
* `Header.decode`: reads a head, and refuses one that is not of this version.
-/

namespace CollectionDelta

structure Header where
  flags : UInt8
  codec : Option UInt8
  count : Nat
  deriving DecidableEq, Repr

namespace Header

def version : UInt8 := 1

/-- Bit 0: records carry checksums. -/
def checksumFlag (flags : UInt8) : Bool := flags.toNat % 2 = 1

/-- Bit 1: payloads may be compressed, by the codec that the head names. -/
def compressedFlag (flags : UInt8) : Bool := flags.toNat / 2 % 2 = 1

/-- No bits but 0 and 1 have a meaning. -/
def flagsKnown (flags : UInt8) : Bool := flags.toNat < 4

def flagsOf (checksum compressed : Bool) : UInt8 :=
  (if checksum then 1 else 0) + (if compressed then 2 else 0)

def hasChecksum (h : Header) : Bool := checksumFlag h.flags
def isCompressed (h : Header) : Bool := compressedFlag h.flags

def pieces (h : Header) : List Bytes :=
  [magic, [version, h.flags]]
    ++ (if h.isCompressed then [[h.codec.getD 0]] else [])
    ++ [Varint.encode h.count]

/-- The written form of a head. -/
def encode (h : Header) : Bytes := h.pieces.flatten

/-- Writes a head to a writer that may not take all of it. -/
def write {σ : Type} [Writer σ] (h : Header) (w : σ) : Except Fault Unit × σ :=
  Writer.writeEach w h.pieces

def readMagic : Decoder Unit := do
  let found ← Decoder.exactly magic.length
  if found = magic then return () else Decoder.invalid (.wrongMagic found)

def readFlags : Decoder UInt8 := do
  let b ← Decoder.exactly 2
  let found := b.getD 0 0
  let flags := b.getD 1 0
  if found ≠ version then Decoder.fail (.unsupported (.version found))
  else if flagsKnown flags then return flags
  else Decoder.invalid (.unknownFlags flags)

def readCodec (flags : UInt8) : Decoder (Option UInt8) :=
  if compressedFlag flags then do
    let id ← Decoder.byte
    return some id
  else return none

def decode : Decoder Header := do
  readMagic
  let flags ← readFlags
  let codec ← readCodec flags
  let count ← Decoder.varint
  return ⟨flags, codec, count⟩

end Header
end CollectionDelta
