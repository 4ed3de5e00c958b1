import CollectionDelta.Checksum.Adler32
import CollectionDelta.Deflate.Tables

/-!
Writing compressed data in the zlib format (RFC 1950 and 1951).

* `BitWriter`: bytes filled up from their low bits.
* `compress`: the data in blocks as they are for level 0, else in one block with the fixed codes, in
  which a run of bytes that came before is written as a length and a distance.
-/

namespace CollectionDelta.Deflate

structure BitWriter where
  out : ByteArray := ByteArray.empty
  /-- The bits of the byte in progress, and their number. -/
  pending : Nat := 0
  count : Nat := 0

namespace BitWriter

def flushBytes (w : BitWriter) : (fuel : Nat) → BitWriter
  | 0 => w
  | fuel + 1 =>
    if w.count < 8 then w
    else flushBytes ⟨w.out.push (UInt8.ofNat w.pending), w.pending / 256, w.count - 8⟩ fuel

/-- Adds a number of some bits, lowest bit first. -/
def bits (w : BitWriter) (n value : Nat) : BitWriter :=
  flushBytes ⟨w.out, w.pending + value <<< w.count, w.count + n⟩ 8

def reversed : Nat → Nat → Nat
  | 0, _ => 0
  | n + 1, value => reversed n (value / 2) + (value % 2) <<< n

/-- Adds a word of a code, highest bit first. -/
def word (w : BitWriter) (n value : Nat) : BitWriter := w.bits n (reversed n value)

def align (w : BitWriter) : BitWriter := if w.count = 0 then w else w.bits (8 - w.count) 0

end BitWriter

/-! ## Words of the fixed codes -/

def fixedSymbol (w : BitWriter) (s : Nat) : BitWriter :=
  if s < 144 then w.word 8 (0x30 + s)
  else if s < 256 then w.word 9 (0x190 + (s - 144))
  else if s < 280 then w.word 7 (s - 256)
  else w.word 8 (0xC0 + (s - 280))

/-- The last entry of a table that is not above a value. -/
def lastNotAbove (table : Array Nat) (value : Nat) : Nat :=
  table.size.fold (fun i _ best => if table[i]! ≤ value then i else best) 0

def fixedMatch (w : BitWriter) (length distance : Nat) : BitWriter :=
  let l := lastNotAbove lengthBase length
  let d := lastNotAbove distanceBase distance
  let w := (fixedSymbol w (257 + l)).bits lengthExtra[l]! (length - lengthBase[l]!)
  (w.word 5 d).bits distanceExtra[d]! (distance - distanceBase[d]!)

/-! ## Finding what came before -/

def maxDistance : Nat := 32768
def maxLength : Nat := 258
def minLength : Nat := 3

def hashSize : Nat := 8192

/-- A place in the table of what came before, by the three bytes at a position. -/
def hashAt (data : ByteArray) (i : Nat) : Nat :=
  let x := (data.get! i).toNat + 256 * (data.get! (i + 1)).toNat
    + 65536 * (data.get! (i + 2)).toNat
  x * 2654435761 / 65536 % hashSize

/-- How many bytes from two positions on are the same, up to a limit. -/
def common (data : ByteArray) (i j : Nat) : (limit : Nat) → Nat
  | 0 => 0
  | limit + 1 =>
    if data.get! i = data.get! j then common data (i + 1) (j + 1) limit + 1 else 0

/-- The table holds one more than the position at which three bytes were last seen. -/
def remember (data : ByteArray) (seen : Array Nat) (i : Nat) : (count : Nat) → Array Nat
  | 0 => seen
  | count + 1 =>
    if i + minLength ≤ data.size then
      remember data (seen.set! (hashAt data i) (i + 1)) (i + 1) count
    else seen

def fixedFrom (data : ByteArray) (seen : Array Nat) (w : BitWriter) (i : Nat) :
    (fuel : Nat) → BitWriter
  | 0 => w
  | fuel + 1 =>
    if data.size ≤ i then w else
    let before := if i + minLength ≤ data.size then seen[hashAt data i]! else 0
    let distance := i + 1 - before
    let length :=
      if before = 0 ∨ maxDistance < distance then 0
      else common data (before - 1) i (min maxLength (data.size - i))
    if length < minLength then
      fixedFrom data (remember data seen i 1) (fixedSymbol w (data.get! i).toNat) (i + 1) fuel
    else
      fixedFrom data (remember data seen i length) (fixedMatch w length distance) (i + length) fuel

def fixedBlock (data : ByteArray) (w : BitWriter) : BitWriter :=
  let w := (w.bits 1 1).bits 2 1
  (fixedSymbol (fixedFrom data (Array.replicate hashSize 0) w 0 data.size) endOfBlock).align

/-! ## Data as they are -/

def maxStored : Nat := 65535

def pushSlice (out data : ByteArray) (i length : Nat) : ByteArray :=
  length.fold (fun k _ o => o.push (data.get! (i + k))) out

def storedBlocks (data : ByteArray) (out : ByteArray) (i : Nat) : (fuel : Nat) → ByteArray
  | 0 => out
  | fuel + 1 =>
    let length := min maxStored (data.size - i)
    let last := data.size ≤ i + length
    let head := [if last then 1 else 0, length % 256, length / 256,
      (maxStored - length) % 256, (maxStored - length) / 256]
    let out := head.foldl (fun o x => o.push (UInt8.ofNat x)) out
    let out := pushSlice out data i length
    if last then out else storedBlocks data out (i + length) fuel

/-! ## The frame -/

/-- The second byte of the head tells the effort, and makes the head a multiple of 31. -/
def effort (level : Nat) : UInt8 :=
  if level ≤ 1 then 0x01 else if level ≤ 5 then 0x5E else if level = 6 then 0x9C else 0xDA

def compress (level : Nat) (data : ByteArray) : ByteArray :=
  let head := (ByteArray.empty.push 0x78).push (effort level)
  let body :=
    if level = 0 then storedBlocks data head 0 (data.size + 1)
    else (fixedBlock data ⟨head, 0, 0⟩).out
  let sum := (data.foldl Adler32.State.add {}).value
  (Bytes.ofNat 4 sum).foldl ByteArray.push body

end CollectionDelta.Deflate
