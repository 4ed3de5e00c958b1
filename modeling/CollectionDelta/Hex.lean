/-!
Numbers in base sixteen, as messages and digests show them.

* `Hex.upper`: capital digits, filled with zeros to a width.
* `Hex.lower`: the two small digits of each byte.
-/

namespace CollectionDelta.Hex

private def filled (width : Nat) (digits : List Char) : List Char :=
  List.replicate (width - digits.length) '0' ++ digits

def upper (width n : Nat) : String :=
  String.ofList (filled width ((Nat.toDigits 16 n).map Char.toUpper))

/-- As `upper`, after `0x`. -/
def marked (width n : Nat) : String := "0x" ++ upper width n

def lower (b : List UInt8) : String :=
  String.ofList (b.flatMap fun x => filled 2 (Nat.toDigits 16 x.toNat))

end CollectionDelta.Hex
