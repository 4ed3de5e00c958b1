/-!
Text in a field of at least some width.

* `Padding.left`, `Padding.right`, `Padding.centre`: the side on which the text stands; when the
  blanks on the two sides of a centred text cannot be equal, there is one more on the right.
-/

namespace CollectionDelta.Padding

private def run (n : Nat) : String := "".pushn ' ' n

def left (width : Nat) (s : String) : String := s ++ run (width - s.length)

def right (width : Nat) (s : String) : String := run (width - s.length) ++ s

def centre (fill : Char) (width : Nat) (s : String) : String :=
  let gap := width - s.length
  "".pushn fill (gap / 2) ++ s ++ "".pushn fill (gap - gap / 2)

/-- The first characters of a text. -/
def cut (length : Nat) (s : String) : String := String.ofList (s.toList.take length)

end CollectionDelta.Padding
