/-!
JSON text for people: one item a line, two spaces of indentation a level.

* `JsonValue`: what reports are made of; the fields of an object keep their order.
* `JsonValue.quote`: a text between quotes, with escapes where JSON asks for them.
* `JsonValue.pretty`: the text of a value.
-/

namespace CollectionDelta

inductive JsonValue
  | null
  | number (n : Nat)
  | text (s : String)
  | list (items : List JsonValue)
  | object (fields : List (String × JsonValue))

namespace JsonValue

/-! ## Quotes -/

/-- A control character by its number in base sixteen. -/
def byNumber (c : Char) : List Char :=
  ['\\', 'u', '0', '0', Nat.digitChar (c.toNat / 16), Nat.digitChar (c.toNat % 16)]

def escape (c : Char) : List Char :=
  if c = '"' then ['\\', '"']
  else if c = '\\' then ['\\', '\\']
  else if c = '\x08' then ['\\', 'b']
  else if c = '\t' then ['\\', 't']
  else if c = '\n' then ['\\', 'n']
  else if c = '\x0c' then ['\\', 'f']
  else if c = '\r' then ['\\', 'r']
  else if c.toNat < 0x20 then byNumber c
  else [c]

def quote (s : String) : String := String.ofList ('"' :: s.toList.flatMap escape ++ ['"'])

/-! ## Layout -/

def margin (level : Nat) : String := "".pushn ' ' (2 * level)

/-- Items between brackets; the brackets of no items stand together. -/
def bracketed (opening closing : String) (level : Nat) (items : List String) : String :=
  match items with
  | [] => opening ++ closing
  | items =>
    opening ++ "\n" ++ ",\n".intercalate (items.map (margin (level + 1) ++ ·))
      ++ "\n" ++ margin level ++ closing

mutual

def prettyAt (level : Nat) : JsonValue → String
  | .null => "null"
  | .number n => toString n
  | .text s => quote s
  | .list items => bracketed "[" "]" level (itemsAt (level + 1) items)
  | .object fields => bracketed "\x7b" "\x7d" level (fieldsAt (level + 1) fields)

def itemsAt (level : Nat) : List JsonValue → List String
  | [] => []
  | v :: rest => prettyAt level v :: itemsAt level rest

def fieldsAt (level : Nat) : List (String × JsonValue) → List String
  | [] => []
  | (name, v) :: rest => (quote name ++ ": " ++ prettyAt level v) :: fieldsAt level rest

end

def pretty (v : JsonValue) : String := prettyAt 0 v

end JsonValue
end CollectionDelta
