import CollectionDelta.Checksum.Adler32
import CollectionDelta.Deflate.Tables

/-!
Reading compressed data in the zlib format (RFC 1950 and 1951).

* `Halt`: why a reading stops before the end of the data.
* `Inflater`: a reading in progress, with the bits used and the bytes given out so far.
* `inflate`: the bytes that the data stand for, or the first bytes up to a limit.
-/

namespace CollectionDelta.Deflate

/-- The limit is reached, the data end too early, or they are invalid. -/
inductive Halt
  | full (out : ByteArray)
  | incomplete
  | corrupt

structure Window where
  /-- Bits of the input used so far. -/
  used : Nat := 0
  out : ByteArray := ByteArray.empty

abbrev Inflater := ReaderT (ByteArray × Nat) (StateT Window (Except Halt))

namespace Inflater

def corrupt {α : Type} : Inflater α := throw .corrupt

def bit : Inflater Nat := do
  let (input, _) ← read
  let p := (← get).used
  if p / 8 < input.size then
    modify fun w => { w with used := p + 1 }
    return ((input.get! (p / 8)).toNat >>> (p % 8)) % 2
  else throw .incomplete

/-- A number of some bits, lowest bit first. -/
def bits : Nat → Inflater Nat
  | 0 => return 0
  | n + 1 => do
    let b ← bit
    let rest ← bits n
    return b + 2 * rest

/-- Skips what is left of a byte that has been begun. -/
def align : Inflater Unit := modify fun w => { w with used := (w.used + 7) / 8 * 8 }

/-- Gives out one byte, and stops when that was the last one wanted. -/
def emit (b : UInt8) : Inflater Unit := do
  let (_, limit) ← read
  modify fun w => { w with out := w.out.push b }
  let w ← get
  if limit ≤ w.out.size then throw (.full w.out)

/-- The symbol of the next word, or nothing if the next bits are no word. `code`, `first` and `index`
are the bits so far, the first word of their length and its symbol's place. -/
def symbolFrom (h : Huffman) (code first index length : Nat) : (more : Nat) → Inflater (Option Nat)
  | 0 => return none
  | more + 1 => do
    let code := code + (← bit)
    let count := h.counts[length]!
    if code < first + count then return some h.symbols[index + (code - first)]!
    else symbolFrom h (2 * code) (2 * (first + count)) (index + count) (length + 1) more

def symbol (h : Huffman) : Inflater (Option Nat) := symbolFrom h 0 0 0 1 (max 1 h.longest)

/-- Gives out again what was given out some bytes ago. -/
def copy (distance : Nat) : (length : Nat) → Inflater Unit
  | 0 => return ()
  | length + 1 => do
    let out := (← get).out
    let b := out.get! (out.size - distance)
    emit b
    copy distance length

/-! ## Blocks -/

def match_ (distances : Huffman) (lengthSymbol : Nat) : Inflater Unit := do
  let i := lengthSymbol - 257
  if lengthBase.size ≤ i then corrupt
  let length := lengthBase[i]! + (← bits lengthExtra[i]!)
  let some d ← symbol distances | corrupt
  if distanceBase.size ≤ d then corrupt
  let distance := distanceBase[d]! + (← bits distanceExtra[d]!)
  if (← get).out.size < distance then corrupt
  copy distance length

/-- The symbols of a block up to its end; every symbol takes a bit, so `fuel` can be the number of
bits there are. -/
def symbols (lengths distances : Huffman) : (fuel : Nat) → Inflater Unit
  | 0 => throw .incomplete
  | fuel + 1 => do
    let some s ← symbol lengths | corrupt
    if s < endOfBlock then
      emit (UInt8.ofNat s)
      symbols lengths distances fuel
    else if s = endOfBlock then return ()
    else
      match_ distances s
      symbols lengths distances fuel

def storedBytes : (length : Nat) → Inflater Unit
  | 0 => return ()
  | length + 1 => do
    emit (UInt8.ofNat (← bits 8))
    storedBytes length

def stored : Inflater Unit := do
  align
  let length ← bits 16
  let complement ← bits 16
  if length + complement ≠ 65535 then corrupt
  storedBytes length

/-- Goes on with a list of code lengths until there are `wanted`; every step adds a length. -/
def codeLengths (code : Huffman) (wanted : Nat) (have_ : Array Nat) :
    (fuel : Nat) → Inflater (Array Nat)
  | 0 => return have_
  | fuel + 1 => do
    if wanted ≤ have_.size then return have_
    let s := (← symbol code).getD 0
    if s < 16 then codeLengths code wanted (have_.push s) fuel
    else
      let (value, count) ←
        if s = 16 then do
          let more ← bits 2
          if have_.size = 0 then corrupt
          pure (have_[have_.size - 1]!, 3 + more)
        else if s = 17 then do pure (0, 3 + (← bits 3))
        else do pure (0, 11 + (← bits 7))
      if wanted < have_.size + count then corrupt
      codeLengths code wanted (have_ ++ Array.replicate count value) fuel

def readOrdered (lengths : Array Nat) : List Nat → Inflater (Array Nat)
  | [] => return lengths
  | i :: rest => do
    let l ← bits 3
    readOrdered (lengths.set! i l) rest

/-- The two codes that a block brings along. -/
def ownCodes : Inflater (Huffman × Huffman) := do
  let lengthCount := 257 + (← bits 5)
  let distanceCount := 1 + (← bits 5)
  let codeCount := 4 + (← bits 4)
  if 286 < lengthCount ∨ 30 < distanceCount then corrupt
  let own ← readOrdered (Array.replicate 19 0) (codeLengthOrder.take codeCount)
  let code := Huffman.ofLengths own
  if !code.isSound false then corrupt
  let all ← codeLengths code (lengthCount + distanceCount) #[] (lengthCount + distanceCount)
  if all[endOfBlock]! = 0 then corrupt
  let lengths := Huffman.ofLengths (all.extract 0 lengthCount)
  if !lengths.isSound true then corrupt
  let distances := Huffman.ofLengths (all.extract lengthCount all.size)
  if !distances.isSound true then corrupt
  return (lengths, distances)

def fixedCodes : Huffman × Huffman :=
  (Huffman.ofLengths fixedLengths, Huffman.ofLengths fixedDistances)

def block (fuel : Nat) : Inflater Bool := do
  let last ← bit
  let kind ← bits 2
  if kind = 0 then stored
  else if kind = 1 then symbols fixedCodes.1 fixedCodes.2 fuel
  else if kind = 2 then
    let (lengths, distances) ← ownCodes
    symbols lengths distances fuel
  else corrupt
  return last = 1

def blocks (bitCount : Nat) : (fuel : Nat) → Inflater Unit
  | 0 => throw .incomplete
  | fuel + 1 => do
    if ← block bitCount then return () else blocks bitCount fuel

/-! ## The frame -/

def header : Inflater Unit := do
  let method ← bits 8
  let flags ← bits 8
  if (256 * method + flags) % 31 ≠ 0 ∨ method % 16 ≠ 8 ∨ 7 < method / 16 then corrupt
  if flags / 32 % 2 = 1 then
    let _ ← bits 32
    corrupt

def bytesBigEndian : Nat → Nat → Inflater Nat
  | 0, value => return value
  | n + 1, value => do bytesBigEndian n (256 * value + (← bits 8))

def frame (bitCount : Nat) : Inflater Unit := do
  header
  blocks bitCount bitCount
  align
  let sum ← bytesBigEndian 4 0
  if sum ≠ ((← get).out.foldl Adler32.State.add {}).value then corrupt

end Inflater

/-- The bytes that zlib data stand for; the reading stops as soon as `limit` bytes are out, and what
follows the data is not looked at. -/
def inflate (input : ByteArray) (limit : Nat) : Except Halt ByteArray :=
  match (Inflater.frame (8 * input.size + 1)).run (input, limit) |>.run {} with
  | .ok (_, w) => .ok w.out
  | .error (.full out) => .ok out
  | .error h => .error h

end CollectionDelta.Deflate
