import CollectionDelta.Text.Blank

/-!
Sizes as people write them: a number with an optional unit K, M or G.

* `ByteSize.parse`: the number of bytes a text stands for, below 2^64.
* `SizeError`, `SizeError.message`: why a text is no size.
-/

namespace CollectionDelta

inductive NumberError
  | noDigits | notADigit | tooLarge
  deriving DecidableEq, Repr

def NumberError.message : NumberError → String
  | .noDigits => "cannot parse integer from empty string"
  | .notADigit => "invalid digit found in string"
  | .tooLarge => "number too large to fit in target type"

inductive SizeError
  | empty
  | badNumber (size : String) (cause : NumberError)
  | overflow (size : String)
  deriving DecidableEq, Repr

def SizeError.message : SizeError → String
  | .empty => "empty size string"
  | .badNumber size cause => s!"invalid size '{size}': {cause.message}"
  | .overflow size => s!"size overflow: '{size}'"

namespace ByteSize

/-- Sizes are below two to the 64th. -/
def bound : Nat := 0x10000000000000000

/-- Goes on with a number of which the digits so far have the value `value`; the first character
that is wrong, or at which the bound is passed, decides. -/
def readDigits (bound : Nat) (value : Nat) : List Char → Except NumberError Nat
  | [] => .ok value
  | c :: cs =>
    if c.isDigit then
      let v := 10 * value + (c.toNat - '0'.toNat)
      if v < bound then readDigits bound v cs else .error .tooLarge
    else .error .notADigit

/-- A whole number below a bound, with an optional plus sign. -/
def number (bound : Nat) : List Char → Except NumberError Nat
  | [] => .error .noDigits
  | ['+'] => .error .notADigit
  | '+' :: cs => readDigits bound 0 cs
  | cs => readDigits bound 0 cs

/-- What a unit multiplies by. -/
def factor? : Char → Option Nat
  | 'k' => some 1024
  | 'K' => some 1024
  | 'm' => some (1024 * 1024)
  | 'M' => some (1024 * 1024)
  | 'g' => some (1024 * 1024 * 1024)
  | 'G' => some (1024 * 1024 * 1024)
  | _ => none

/-- The part before the unit, and the unit's factor; without a unit the factor is one. -/
def splitUnit (s : List Char) : List Char × Nat :=
  match s.getLast?.bind factor? with
  | some f => (s.dropLast, f)
  | none => (s, 1)

def parse (s : String) : Except SizeError Nat :=
  let t := Blank.trim s.toList
  if t = [] then .error .empty else
  let (digits, factor) := splitUnit t
  match number bound (Blank.trim digits) with
  | .error e => .error (.badNumber (String.ofList t) e)
  | .ok n => if n * factor < bound then .ok (n * factor) else .error (.overflow (String.ofList t))

end ByteSize
end CollectionDelta
