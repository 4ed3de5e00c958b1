import CollectionDelta.Lzma.Model

/-!
Writing data in the LZMA-alone format.

* `RangeWriter`: the range encoder.
* `encode`: the data as literals, under the model that adapts to them, and an end marker.
-/

namespace CollectionDelta.Lzma

structure RangeWriter where
  out : ByteArray
  low : UInt64
  range : UInt32
  cache : UInt8
  cacheSize : Nat

namespace RangeWriter

/-- Writes the bytes that a carry can no longer change. -/
def shiftLow : RangeWriter → RangeWriter
  | ⟨out, low, range, cache, cacheSize⟩ =>
    let kept := (low &&& 0x00FFFFFF) <<< 8
    if low < 0xFF000000 ∨ 0xFFFFFFFF < low then
      let carry := (low >>> 32).toUInt8
      let out := cacheSize.fold (fun i _ o => o.push ((if i = 0 then cache else 0xFF) + carry)) out
      ⟨out, kept, range, (low >>> 24).toUInt8, 1⟩
    else ⟨out, kept, range, cache, cacheSize + 1⟩

def normalize (w : RangeWriter) : (fuel : Nat) → RangeWriter
  | 0 => w
  | fuel + 1 =>
    if w.range < 0x1000000 then normalize (shiftLow { w with range := w.range <<< 8 }) fuel else w

def bit (w : RangeWriter) (p : Nat) (b : Bool) : RangeWriter :=
  let bound := (w.range >>> 11) * UInt32.ofNat p
  normalize
    (if b then { w with low := w.low + bound.toUInt64, range := w.range - bound }
      else { w with range := bound }) 4

/-- A one among bits that are as likely zero as one. -/
def directOne (w : RangeWriter) : RangeWriter :=
  let range := w.range >>> 1
  normalize { w with low := w.low + range.toUInt64, range } 4

def finish (w : RangeWriter) : RangeWriter := Nat.fold 5 (fun _ _ w => shiftLow w) w

end RangeWriter

namespace Encoder

def literalContext : Nat := 3

/-- Literals adapt to the upper bits of the byte before; matches are told apart by position. -/
def literalContexts : Nat := 1 <<< literalContext
def positionStates : Nat := 4

structure State where
  writer : RangeWriter
  probabilities : Array Nat

def bit : State → (place : Nat) → Bool → State
  | ⟨writer, probabilities⟩, place, b =>
    let p := probabilities[place]!
    ⟨writer.bit p b, probabilities.set! place (Model.adapted p b)⟩

def literalBits (s : State) (base value node : Nat) : Nat → State
  | 0 => s
  | n + 1 =>
    let b := value >>> n % 2
    literalBits (bit s (base + node) (b = 1)) base value (2 * node + b) n

def literal (s : State) (position previous value : Nat) : State :=
  let s := bit s (Model.isMatch + position % positionStates) false
  let context := previous >>> (8 - literalContext)
  literalBits s (Model.literals + Model.literalSize * context) value 1 8

def literals (s : State) (data : ByteArray) : State :=
  data.size.fold (fun i _ s =>
    let previous := if i = 0 then 0 else (data.get! (i - 1)).toNat
    literal s i previous (data.get! i).toNat) s

/-- A match of the shortest length at the distance that means the end. -/
def endMarker (s : State) (position : Nat) : RangeWriter :=
  let w := (bit s (Model.isMatch + position % positionStates) true).writer
  let w := Nat.fold 5 (fun _ _ w => w.bit Model.half false) w
  let w := Nat.fold 6 (fun _ _ w => w.bit Model.half true) w
  let w := Nat.fold 26 (fun _ _ w => w.directOne) w
  Nat.fold 4 (fun _ _ w => w.bit Model.half true) w

def head : ByteArray := ⟨#[0x5D, 0, 0, 0x80, 0, 0xFF, 0xFF, 0xFF, 0xFF, 0xFF, 0xFF, 0xFF, 0xFF]⟩

end Encoder

def encode (data : ByteArray) : ByteArray :=
  let start : Encoder.State :=
    ⟨⟨Encoder.head, 0, 0xFFFFFFFF, 0, 1⟩, Model.start Encoder.literalContexts⟩
  let s := Encoder.literals start data
  (Encoder.endMarker s (max 1 data.size)).finish.out

end CollectionDelta.Lzma
