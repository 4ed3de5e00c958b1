import CollectionDelta.CommandLine.Values

/-!
Arguments read from left to right.

* `Scan`: what was said so far, with the setting whose value is still to be looked at.
* `Scan.settle`: looks at that value; this is done before the next word takes effect.
* `Scan.long`, `Scan.cluster`, `Scan.plain`: the effect of one argument.
* `Scan.all`: the effect of all arguments after a command.
-/

namespace CollectionDelta.CommandLine

structure Scan where
  flags : List Flag := []
  verbosity : Nat := 0
  values : Values := {}
  /-- The setting named last, and its value once that has come as an argument of its own. -/
  pending : Option (Setting × Option String) := none
  /-- The places that are still free. -/
  places : List Setting := []
  deriving DecidableEq, Repr

namespace Scan

def isSilent (s : Scan) : Bool := s.flags.isEmpty && s.verbosity = 0

def settle (s : Scan) : Except Halt Scan :=
  match s.pending with
  | none => .ok s
  | some (setting, none) => .error (.noValue setting)
  | some (setting, some text) =>
    (s.values.set setting text).map fun v => { s with values := v, pending := none }

/-- A flag takes effect at once; only `verbose` may come again. -/
def raise (topic : Option Command) (s : Scan) (f : Flag) : Except Halt Scan := do
  let s ← s.settle
  match f with
  | .help => .error (.help topic)
  | .version => .error .version
  | .verbose => return { s with verbosity := s.verbosity + 1 }
  | f => if f ∈ s.flags then .error (.flagTwice f) else return { s with flags := f :: s.flags }

/-- A setting with its value in the same argument. -/
def give (s : Scan) (setting : Setting) (text : String) : Except Halt Scan := do
  let s ← s.settle
  let v ← s.values.set setting text
  return { s with values := v }

/-- A setting whose value is to be the next argument. -/
def await (s : Scan) (setting : Setting) : Except Halt Scan := do
  let s ← s.settle
  return { s with pending := some (setting, none) }

/-! ## Arguments -/

def long (topic : Option Command) (g : Grammar) (s : Scan) (name : String)
    (value? : Option String) : Except Halt Scan :=
  match g.ofName? name, value? with
  | none, _ => .error (.unknownArgument s!"--{name}")
  | some (.flag f), some value => .error (.valueForFlag f value)
  | some (.flag f), none => s.raise topic f
  | some (.setting setting), some value => s.give setting value
  | some (.setting setting), none => s.await setting

/-- Letters after one dash. What follows the letter of a setting is its value, with or without an
equals sign between them. -/
def cluster (topic : Option Command) (g : Grammar) (s : Scan) : List Char → Except Halt Scan
  | [] => .ok s
  | c :: cs =>
    match g.ofLetter? c with
    | none => .error (.unknownArgument (String.ofList ['-', c]))
    | some (.flag f) => do cluster topic g (← s.raise topic f) cs
    | some (.setting setting) =>
      match cs with
      | [] => s.await setting
      | '=' :: value => s.give setting (String.ofList value)
      | value => s.give setting (String.ofList value)

/-- An argument that takes the next free place. -/
def place (s : Scan) (text : String) : Except Halt Scan :=
  match s.places with
  | [] => .error (.unknownArgument text)
  | setting :: rest => do
    let s ← s.settle
    return { s with pending := some (setting, some text), places := rest }

/-- An argument that is no option: the value that is awaited, else one more place. -/
def plain (s : Scan) (text : String) : Except Halt Scan :=
  match s.pending with
  | some (setting, none) => .ok { s with pending := some (setting, some text) }
  | _ => s.place text

/-- All arguments after a command. -/
def all (topic : Option Command) (g : Grammar) (s : Scan) : List String → Except Halt Scan
  | [] => s.settle
  | arg :: rest =>
    match Shape.ofText arg with
    | .divider => do (← rest.foldlM place s).settle
    | .long name value? => do all topic g (← s.long topic g name value?) rest
    | .cluster cs => do all topic g (← s.cluster topic g cs) rest
    | .plain => do all topic g (← s.plain arg) rest

end Scan
end CollectionDelta.CommandLine
