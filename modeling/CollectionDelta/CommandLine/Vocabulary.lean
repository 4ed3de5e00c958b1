/-!
The words of the command line.

* `Command`: what can be done.
* `Flag`, `Setting`: words that stand alone, and words or places that have a value.
* `Grammar`: the words that mean something at one place, `Grammar.general` before the command and
  `Grammar.ofCommand` after it.
* `Shape`: how an argument looks, whatever it may mean.
-/

namespace CollectionDelta.CommandLine

inductive Command
  | diff | restore | list | config
  deriving DecidableEq, Repr

namespace Command

def all : List Command := [.diff, .restore, .list, .config]

def name : Command → String
  | .diff => "diff"
  | .restore => "restore"
  | .list => "show"
  | .config => "config"

def ofName? (s : String) : Option Command := all.find? fun c => c.name = s

end Command

/-- The word that asks for help in the place of a command. -/
def helpWord : String := "help"

inductive Flag
  | force | quiet | verbose | json | noChecksum | allowDuplicates | help | version
  deriving DecidableEq, Repr

namespace Flag

def name : Flag → String
  | .force => "force"
  | .quiet => "quiet"
  | .verbose => "verbose"
  | .json => "json"
  | .noChecksum => "no-checksum"
  | .allowDuplicates => "allow-duplicates"
  | .help => "help"
  | .version => "version"

def letter? : Flag → Option Char
  | .force => some 'f'
  | .quiet => some 'q'
  | .verbose => some 'v'
  | .help => some 'h'
  | .version => some 'V'
  | _ => none

end Flag

/-- `outputPlace` and `input` are given by place, all others by name. -/
inductive Setting
  | base | derived | diff | output | compression | level | chunkSize | outputPlace | input
  deriving DecidableEq, Repr

namespace Setting

def name : Setting → String
  | .base => "base"
  | .derived => "derived"
  | .diff => "diff"
  | .output => "output"
  | .compression => "compression"
  | .level => "level"
  | .chunkSize => "chunk-size"
  | .outputPlace => "output-pos"
  | .input => "input"

def letter? : Setting → Option Char
  | .base => some 'b'
  | .derived => some 'd'
  | .level => some 'l'
  | _ => none

/-- The word that stands for the value of a setting. -/
def valueWord (s : Setting) : String :=
  s.name.map fun c => if c = '-' then '_' else c.toUpper

/-- How messages name a setting. -/
def shown : Setting → String
  | .outputPlace => s!"[{valueWord .outputPlace}]"
  | .input => s!"<{valueWord .input}>"
  | s => s!"--{s.name} <{s.valueWord}>"

end Setting

/-- The settings that a command cannot do without. -/
def Command.needed : Command → List Setting
  | .diff => [.base, .derived]
  | .restore => [.derived, .diff]
  | .list => [.input]
  | .config => []

/-! ## Places -/

inductive Word
  | flag (flag : Flag)
  | setting (setting : Setting)
  deriving DecidableEq, Repr

structure Grammar where
  flags : List Flag
  /-- The settings that are given by name. -/
  settings : List Setting := []
  /-- The settings that are given by place, in order. -/
  places : List Setting := []

namespace Grammar

/-- These flags mean the same before and after the command. -/
def everywhere : List Flag := [.force, .quiet, .verbose, .json, .help]

def general : Grammar where
  flags := everywhere ++ [.version]

def ofCommand : Command → Grammar
  | .diff => {
      flags := [.noChecksum, .allowDuplicates] ++ everywhere
      settings := [.base, .derived, .output, .compression, .level, .chunkSize]
      places := [.outputPlace] }
  | .restore => {
      flags := everywhere
      settings := [.derived, .diff, .output]
      places := [.outputPlace] }
  | .list => { flags := .noChecksum :: everywhere, places := [.input] }
  | .config => { flags := everywhere }

def words (g : Grammar) : List Word := g.flags.map .flag ++ g.settings.map .setting

def ofName? (g : Grammar) (name : String) : Option Word :=
  g.words.find? fun
    | .flag f => f.name = name
    | .setting s => s.name = name

def ofLetter? (g : Grammar) (c : Char) : Option Word :=
  g.words.find? fun
    | .flag f => f.letter? = some c
    | .setting s => s.letter? = some c

end Grammar

/-! ## Shapes -/

inductive Shape
  /-- Two dashes alone: no options follow. -/
  | divider
  | long (name : String) (value? : Option String)
  | cluster (letters : List Char)
  | plain
  deriving DecidableEq, Repr

/-- The name before the first equals sign, and the value after it. -/
def Shape.ofLong (cs : List Char) : Shape :=
  let name := String.ofList (cs.takeWhile (· ≠ '='))
  match cs.dropWhile (· ≠ '=') with
  | [] => .long name none
  | _ :: value => .long name (some (String.ofList value))

/-- One dash alone is a plain argument. -/
def Shape.ofText (s : String) : Shape :=
  match s.toList with
  | ['-', '-'] => .divider
  | '-' :: '-' :: cs => .ofLong cs
  | '-' :: c :: cs => .cluster (c :: cs)
  | _ => .plain

end CollectionDelta.CommandLine
