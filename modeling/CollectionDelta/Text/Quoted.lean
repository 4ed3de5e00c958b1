import CollectionDelta.Text.Unprintable

/-!
Text between double quotes, with everything that cannot be seen written out.

* `Quoted.escape`: how one character is written.
* `Quoted.encode`: a whole text, quotes included.
-/

namespace CollectionDelta.Quoted

/-- A character by its number in base sixteen. -/
def byNumber (c : Char) : List Char :=
  ['\\', 'u', '\x7b'] ++ Nat.toDigits 16 c.toNat ++ ['\x7d']

def escape (c : Char) : List Char :=
  if c = '\x00' then ['\\', '0']
  else if c = '\t' then ['\\', 't']
  else if c = '\r' then ['\\', 'r']
  else if c = '\n' then ['\\', 'n']
  else if c = '"' then ['\\', '"']
  else if c = '\\' then ['\\', '\\']
  else if c.toNat < 0x20 then byNumber c
  else if c.toNat < 0x7F then [c]
  else if Unprintable.contains c then byNumber c
  else [c]

def encode (s : String) : String :=
  String.ofList ('"' :: s.toList.flatMap escape ++ ['"'])

end CollectionDelta.Quoted
