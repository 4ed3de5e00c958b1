import CollectionDelta.Lzma.Model

/-!
Reading data in the LZMA-alone format.

* `Halt`: why a reading fails.
* `Properties`: what the head of the data says.
* `Machine`: a reading in progress.
* `decode`: the bytes that the data stand for. They are handed on whenever the dictionary is full
  and at the end, and no more than a limit may be.
-/

namespace CollectionDelta.Lzma

inductive Halt
  | invalid
  | tooLong
  deriving DecidableEq, Repr

structure Properties where
  literalContext : Nat
  literalPosition : Nat
  position : Nat
  dictionary : Nat
  /-- The number of bytes the data stand for; without it there is an end marker. -/
  size? : Option Nat
  deriving DecidableEq, Repr

structure Machine where
  input : ByteArray
  at_ : Nat
  range : UInt32
  code : UInt32
  probabilities : Array Nat
  out : ByteArray
  state : Nat
  rep0 : Nat
  rep1 : Nat
  rep2 : Nat
  rep3 : Nat

/-- The head is fixed while the machine runs. -/
structure Setting where
  properties : Properties
  limit : Nat

abbrev Decoding := ReaderT Setting (StateT Machine (Except Halt))

namespace Decoding

def invalid {α : Type} : Decoding α := throw .invalid

/-! ## The range decoder -/

def normalize : Decoding Unit := do
  let m ← get
  if m.range < 0x1000000 then
    if m.at_ < m.input.size then
      let b := m.input.get! m.at_
      set { m with at_ := m.at_ + 1, range := m.range <<< 8, code := (m.code <<< 8) ^^^ b.toUInt32 }
    else invalid

/-- A bit under the probability at a place. -/
def bit (place : Nat) : Decoding Nat := do
  let m ← get
  let p := m.probabilities[place]!
  let bound := (m.range >>> 11) * UInt32.ofNat p
  if m.code < bound then
    modify fun m => { m with
      range := bound
      probabilities := m.probabilities.set! place (Model.adapted p false) }
    normalize
    return 0
  else
    modify fun m => { m with
      range := m.range - bound
      code := m.code - bound
      probabilities := m.probabilities.set! place (Model.adapted p true) }
    normalize
    return 1

/-- Bits that are as likely zero as one, highest first. -/
def direct (value : Nat) : Nat → Decoding Nat
  | 0 => return value
  | n + 1 => do
    modify fun m => { m with range := m.range >>> 1 }
    let m ← get
    let one := m.range ≤ m.code
    if one then modify fun m => { m with code := m.code - m.range }
    normalize
    direct (2 * value + if one then 1 else 0) n

/-- A number of some bits, highest first, under the probabilities of a tree. -/
def treeFrom (base node : Nat) : Nat → Decoding Nat
  | 0 => return node
  | n + 1 => do treeFrom base (2 * node + (← bit (base + node))) n

def tree (base bits : Nat) : Decoding Nat := do return (← treeFrom base 1 bits) - 1 <<< bits

/-- A number of some bits, lowest first. -/
def reverseTree (base node weight value : Nat) : Nat → Decoding Nat
  | 0 => return value
  | n + 1 => do
    let b ← bit (base + node)
    reverseTree base (2 * node + b) (2 * weight) (value + b * weight) n

/-- Nothing of the input is left and the decoder has come out even. -/
def isFinished : Decoding Bool := do
  let m ← get
  return m.code = 0 && m.input.size ≤ m.at_

/-! ## The dictionary -/

/-- Gives out a byte. When the dictionary is full, its bytes are handed on. -/
def emit (b : UInt8) : Decoding Unit := do
  modify fun m => { m with out := m.out.push b }
  let s ← read
  let size := (← get).out.size
  if size % s.properties.dictionary = 0 ∧ s.limit < size then throw .tooLong

def byteBefore (distance : Nat) : Decoding UInt8 := do
  let s ← read
  let out := (← get).out
  if s.properties.dictionary < distance ∨ out.size < distance then invalid
  return out.get! (out.size - distance)

def copyBytes (distance : Nat) : (length : Nat) → Decoding Unit
  | 0 => return ()
  | length + 1 => do
    let out := (← get).out
    let b := out.get! (out.size - distance)
    emit b
    copyBytes distance length

def copy (length distance : Nat) : Decoding Unit := do
  let s ← read
  if s.properties.dictionary < distance ∨ (← get).out.size < distance then invalid
  copyBytes distance length

/-! ## Symbols -/

/-- The rest of a literal, once it is known not to be the byte expected. -/
def plainLiteral (base : Nat) (node : Nat) : (fuel : Nat) → Decoding Nat
  | 0 => return node
  | fuel + 1 =>
    if 0x100 ≤ node then return node
    else do plainLiteral base (2 * node + (← bit (base + node))) fuel

/-- A literal after a match, told by the byte that would have gone on with it. -/
def matchedLiteral (base expected node : Nat) : (fuel : Nat) → Decoding Nat
  | 0 => return node
  | fuel + 1 =>
    if 0x100 ≤ node then return node
    else do
      let want := expected / 128 % 2
      let b ← bit (base + (1 + want) * 256 + node)
      if want = b then matchedLiteral base (2 * expected) (2 * node + b) fuel
      else plainLiteral base (2 * node + b) fuel

def literal : Decoding Unit := do
  let p := (← read).properties
  let m ← get
  let size := m.out.size
  let previous := if size = 0 then 0 else (m.out.get! (size - 1)).toNat
  let context := (size % (1 <<< p.literalPosition)) <<< p.literalContext
    + previous >>> (8 - p.literalContext)
  let base := Model.literals + Model.literalSize * context
  let node ←
    if 7 ≤ m.state then do
      let expected ← byteBefore (m.rep0 + 1)
      matchedLiteral base expected.toNat 1 8
    else plainLiteral base 1 8
  emit (UInt8.ofNat (node - 0x100))
  modify fun m => { m with
    state := if m.state < 4 then 0 else if m.state < 10 then m.state - 3 else m.state - 6 }

def length (base positionState : Nat) : Decoding Nat := do
  if (← bit base) = 0 then tree (base + 2 + 8 * positionState) 3
  else if (← bit (base + 1)) = 0 then return 8 + (← tree (base + 130 + 8 * positionState) 3)
  else return 16 + (← tree (base + 258) 8)

def distance (length : Nat) : Decoding Nat := do
  let slot ← tree (Model.slots + 64 * min length 3) 6
  if slot < 4 then return slot
  let directBits := slot / 2 - 1
  let high := (2 + slot % 2) <<< directBits
  if slot < 14 then
    reverseTree (Model.special + high - slot) 1 1 high directBits
  else
    let middle ← direct 0 (directBits - 4)
    reverseTree Model.align 1 1 (high + 16 * middle) 4

def endMarker : Nat := 0xFFFFFFFF

/-- A match at a distance used before. -/
def repeated (positionState : Nat) : Decoding Unit := do
  let m ← get
  if (← bit (Model.isRepG0 + m.state)) = 0 then
    if (← bit (Model.isRep0Long + 16 * m.state + positionState)) = 0 then
      modify fun m => { m with state := if m.state < 7 then 9 else 11 }
      copy 1 (m.rep0 + 1)
      return
  else if (← bit (Model.isRepG1 + m.state)) = 0 then
    modify fun m => { m with rep0 := m.rep1, rep1 := m.rep0 }
  else if (← bit (Model.isRepG2 + m.state)) = 0 then
    modify fun m => { m with rep0 := m.rep2, rep1 := m.rep0, rep2 := m.rep1 }
  else
    modify fun m => { m with rep0 := m.rep3, rep1 := m.rep0, rep2 := m.rep1, rep3 := m.rep2 }
  let l ← length Model.repLength positionState
  modify fun m => { m with state := if m.state < 7 then 8 else 11 }
  copy (l + 2) ((← get).rep0 + 1)

/-- A match at a new distance; the result says whether it was the end marker. -/
def fresh (positionState : Nat) : Decoding Bool := do
  let l ← length Model.matchLength positionState
  let d ← distance l
  modify fun m => { m with
    rep0 := d, rep1 := m.rep0, rep2 := m.rep1, rep3 := m.rep2
    state := if m.state < 7 then 7 else 10 }
  if d = endMarker then
    if ← isFinished then return true
    invalid
  copy (l + 2) (d + 1)
  return false

/-- One symbol; the result says whether it was the end marker. -/
def symbol : Decoding Bool := do
  let p := (← read).properties
  let m ← get
  let state := m.state
  let positionState := m.out.size % (1 <<< p.position)
  if (← bit (Model.isMatch + 16 * state + positionState)) = 0 then
    literal
    return false
  else if (← bit (Model.isRep + state)) = 0 then fresh positionState
  else
    repeated positionState
    return false

/-- Symbols until the data have come to their end; `fuel` bounds their number. -/
def symbols : (fuel : Nat) → Decoding Unit
  | 0 => invalid
  | fuel + 1 => do
    let size := (← get).out.size
    match (← read).properties.size? with
    | some n =>
      if n ≤ size then
        if n < size then invalid else return ()
      else if ← symbol then invalid
      else symbols fuel
    | none =>
      if ← isFinished then return ()
      else if ← symbol then return ()
      else symbols fuel

end Decoding

/-! ## The head -/

def littleEndian (b : ByteArray) (start width : Nat) : Nat :=
  width.fold (fun i _ n => n + (b.get! (start + i)).toNat <<< (8 * i)) 0

def minDictionary : Nat := 4096

def headSize : Nat := 13

/-- The size that stands for none. -/
def unknownSize : Nat := 0xFFFFFFFFFFFFFFFF

def readProperties (b : ByteArray) : Except Halt Properties :=
  if b.size < headSize then .error .invalid else
  let p := (b.get! 0).toNat
  if 225 ≤ p then .error .invalid else
  let size := littleEndian b 5 8
  .ok {
    literalContext := p % 9
    literalPosition := p / 9 % 5
    position := p / 45
    dictionary := max minDictionary (littleEndian b 1 4)
    size? := if size = unknownSize then none else some size }

/-- A bit leaves at most 2017/2048 of the range, so a byte of input is used up by fewer bits than
this. -/
def bitsPerByte : Nat := 400

/-- The bytes that LZMA data stand for, if they are at most `limit`. -/
def decode (input : ByteArray) (limit : Nat) : Except Halt ByteArray := do
  let p ← readProperties input
  if input.size < headSize + 5 then throw .invalid
  let code := UInt32.ofNat ((Nat.fold 4 (fun i _ n =>
    256 * n + (input.get! (headSize + 1 + i)).toNat) 0))
  let machine : Machine := {
    input, at_ := headSize + 5, range := 0xFFFFFFFF, code
    probabilities := Model.start (1 <<< (p.literalContext + p.literalPosition))
    out := ByteArray.empty, state := 0, rep0 := 0, rep1 := 0, rep2 := 0, rep3 := 0 }
  let (_, m) ← ((Decoding.symbols (bitsPerByte * (input.size + 8))).run ⟨p, limit⟩).run machine
  if limit < m.out.size then throw .tooLong
  return m.out

end CollectionDelta.Lzma
