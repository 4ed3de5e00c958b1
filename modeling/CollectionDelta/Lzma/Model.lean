/-!
The adaptive model that both directions of LZMA share.

* `Model`: every probability in one array, and where each family of them begins.
* `Model.adapted`: a probability after a bit has been seen.
-/

namespace CollectionDelta.Lzma.Model

/-- Probabilities are counted in 2048ths; a bit of zero and one are as likely at first. -/
def scale : Nat := 2048
def half : Nat := 1024
def rate : Nat := 5

def adapted (p : Nat) (bit : Bool) : Nat := 
  if bit then p - p >>> rate else p + (scale - p) >>> rate

/-! ## Families -/

def isMatch : Nat := 0
def isRep : Nat := isMatch + 192
def isRepG0 : Nat := isRep + 12
def isRepG1 : Nat := isRepG0 + 12
def isRepG2 : Nat := isRepG1 + 12
def isRep0Long : Nat := isRepG2 + 12
def slots : Nat := isRep0Long + 192
def special : Nat := slots + 256
def align : Nat := special + 115
def matchLength : Nat := align + 16

/-- A length model: two choices, low and middle lengths for each position state, high lengths. -/
def lengthSize : Nat := 2 + 128 + 128 + 256
def repLength : Nat := matchLength + lengthSize
def literals : Nat := repLength + lengthSize

def literalSize : Nat := 0x300

/-- The first model, for a number of literal contexts. -/
def start (contexts : Nat) : Array Nat := Array.replicate (literals + literalSize * contexts) half

end CollectionDelta.Lzma.Model
