import CollectionDelta.Hex

/-!
The SHA-256 digest (FIPS 180-4).

* `Sha256.padded`: a message with a one bit, zeros and its length, up to whole blocks.
* `Sha256.compress`: one round over a block of sixteen words.
* `Sha256.digest`, `Sha256.hex`: the thirty-two bytes of a message's digest, and their text.
-/

namespace CollectionDelta.Sha256

def roundConstants : Array UInt32 := #[
  0x428a2f98, 0x71374491, 0xb5c0fbcf, 0xe9b5dba5, 0x3956c25b, 0x59f111f1, 0x923f82a4, 0xab1c5ed5,
  0xd807aa98, 0x12835b01, 0x243185be, 0x550c7dc3, 0x72be5d74, 0x80deb1fe, 0x9bdc06a7, 0xc19bf174,
  0xe49b69c1, 0xefbe4786, 0x0fc19dc6, 0x240ca1cc, 0x2de92c6f, 0x4a7484aa, 0x5cb0a9dc, 0x76f988da,
  0x983e5152, 0xa831c66d, 0xb00327c8, 0xbf597fc7, 0xc6e00bf3, 0xd5a79147, 0x06ca6351, 0x14292967,
  0x27b70a85, 0x2e1b2138, 0x4d2c6dfc, 0x53380d13, 0x650a7354, 0x766a0abb, 0x81c2c92e, 0x92722c85,
  0xa2bfe8a1, 0xa81a664b, 0xc24b8b70, 0xc76c51a3, 0xd192e819, 0xd6990624, 0xf40e3585, 0x106aa070,
  0x19a4c116, 0x1e376c08, 0x2748774c, 0x34b0bcb5, 0x391c0cb3, 0x4ed8aa4a, 0x5b9cca4f, 0x682e6ff3,
  0x748f82ee, 0x78a5636f, 0x84c87814, 0x8cc70208, 0x90befffa, 0xa4506ceb, 0xbef9a3f7, 0xc67178f2]

/-- The eight working words. -/
structure State where
  a : UInt32
  b : UInt32
  c : UInt32
  d : UInt32
  e : UInt32
  f : UInt32
  g : UInt32
  h : UInt32
  deriving DecidableEq, Repr

def initial : State :=
  ⟨0x6a09e667, 0xbb67ae85, 0x3c6ef372, 0xa54ff53a, 0x510e527f, 0x9b05688c, 0x1f83d9ab, 0x5be0cd19⟩

def rotr (x : UInt32) (n : UInt32) : UInt32 := (x >>> n) ||| (x <<< (32 - n))

def word (m : ByteArray) (i : Nat) : UInt32 :=
  ((m.get! i).toUInt32 <<< 24) ||| ((m.get! (i + 1)).toUInt32 <<< 16)
    ||| ((m.get! (i + 2)).toUInt32 <<< 8) ||| (m.get! (i + 3)).toUInt32

/-- The sixteen words of the block that starts at a byte, and the forty-eight made from them. -/
def schedule (m : ByteArray) (start : Nat) : Array UInt32 :=
  let first := Nat.fold 16 (fun i _ w => w.push (word m (start + 4 * i))) (Array.mkEmpty 64)
  Nat.fold 48 (fun j _ w =>
    let i := j + 16
    let x := w[i - 15]!
    let y := w[i - 2]!
    let s0 := rotr x 7 ^^^ rotr x 18 ^^^ (x >>> 3)
    let s1 := rotr y 17 ^^^ rotr y 19 ^^^ (y >>> 10)
    w.push (w[i - 16]! + s0 + w[i - 7]! + s1)) first

def step (s : State) (k w : UInt32) : State :=
  let s1 := rotr s.e 6 ^^^ rotr s.e 11 ^^^ rotr s.e 25
  let ch := (s.e &&& s.f) ^^^ ((~~~ s.e) &&& s.g)
  let t1 := s.h + s1 + ch + k + w
  let s0 := rotr s.a 2 ^^^ rotr s.a 13 ^^^ rotr s.a 22
  let maj := (s.a &&& s.b) ^^^ (s.a &&& s.c) ^^^ (s.b &&& s.c)
  ⟨t1 + s0 + maj, s.a, s.b, s.c, s.d + t1, s.e, s.f, s.g⟩

def compress (s : State) (w : Array UInt32) : State :=
  let t := Nat.fold 64 (fun i _ t => step t roundConstants[i]! w[i]!) s
  ⟨s.a + t.a, s.b + t.b, s.c + t.c, s.d + t.d, s.e + t.e, s.f + t.f, s.g + t.g, s.h + t.h⟩

def bigEndian (width n : Nat) : List UInt8 :=
  (List.range width).map fun i => UInt8.ofNat (n >>> (8 * (width - 1 - i)))

def padded (m : ByteArray) : ByteArray :=
  let zeros := (119 - m.size % 64) % 64
  let withZeros := Nat.fold zeros (fun _ _ b => b.push 0) (m.push 0x80)
  (bigEndian 8 (8 * m.size)).foldl ByteArray.push withZeros

def State.bytes (s : State) : List UInt8 :=
  [s.a, s.b, s.c, s.d, s.e, s.f, s.g, s.h].flatMap fun w => bigEndian 4 w.toNat

def digestArray (m : ByteArray) : List UInt8 :=
  let p := padded m
  (Nat.fold (p.size / 64) (fun i _ s => compress s (schedule p (64 * i))) initial).bytes

def digest (m : List UInt8) : List UInt8 := digestArray ⟨m.toArray⟩

def hex (m : List UInt8) : String := Hex.lower (digest m)

end CollectionDelta.Sha256
