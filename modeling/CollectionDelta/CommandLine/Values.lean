import CollectionDelta.ByteSize
import CollectionDelta.CommandLine.Vocabulary

/-!
The values of settings.

* `Halt`: why a command line stands for nothing to be run; `Halt.message` words it.
* `Method`: the ways of compression that can be asked for by name.
* `Values`: the settings that were given; `Values.set` gives one more, and none twice.
-/

namespace CollectionDelta.CommandLine

inductive Halt
  | help (topic : Option Command)
  /-- Nothing was said at all. -/
  | silence
  | version
  | unknownArgument (argument : String)
  | unknownCommand (name : String)
  | noCommand
  | noValue (setting : Setting)
  | notAmong (setting : Setting) (value : String)
  | unreadable (setting : Setting) (value reason : String)
  | valueForFlag (flag : Flag) (value : String)
  | flagTwice (flag : Flag)
  | settingTwice (setting : Setting)
  | quietAndVerbose
  | twoOutputs
  | missing (settings : List Setting)
  deriving DecidableEq, Repr

def Halt.message : Halt → String
  | .help _ => "help was asked for"
  | .silence => "nothing was asked for"
  | .version => "the version was asked for"
  | .unknownArgument argument => s!"unexpected argument '{argument}' found"
  | .unknownCommand name => s!"unrecognized subcommand '{name}'"
  | .noCommand => "a subcommand is required but one was not provided"
  | .noValue s => s!"a value is required for '{s.shown}' but none was supplied"
  | .notAmong s value => s!"invalid value '{value}' for '{s.shown}'"
  | .unreadable s value reason => s!"invalid value '{value}' for '{s.shown}': {reason}"
  | .valueForFlag f value =>
    s!"unexpected value '{value}' for '--{f.name}' found; no more were expected"
  | .flagTwice f => s!"the argument '--{f.name}' cannot be used multiple times"
  | .settingTwice s => s!"the argument '{s.shown}' cannot be used multiple times"
  | .quietAndVerbose => "the argument '--quiet' cannot be used with '--verbose...'"
  | .twoOutputs =>
    s!"the argument '{Setting.output.shown}' cannot be used with '{Setting.outputPlace.shown}'"
  | .missing settings =>
    "the following required arguments were not provided: "
      ++ ", ".intercalate (settings.map Setting.shown)

inductive Method
  | none | lzma | zlib
  deriving DecidableEq, Repr

def Method.ofName? : String → Option Method
  | "none" => some .none
  | "lzma" => some .lzma
  | "zlib" => some .zlib
  | _ => Option.none

structure Values where
  base : Option String := none
  derived : Option String := none
  diff : Option String := none
  output : Option String := none
  outputPlace : Option String := none
  input : Option String := none
  compression : Option Method := none
  level : Option Nat := none
  chunkSize : Option Nat := none
  deriving DecidableEq, Repr

namespace Values

def has (v : Values) : Setting → Bool
  | .base => v.base.isSome
  | .derived => v.derived.isSome
  | .diff => v.diff.isSome
  | .output => v.output.isSome
  | .compression => v.compression.isSome
  | .level => v.level.isSome
  | .chunkSize => v.chunkSize.isSome
  | .outputPlace => v.outputPlace.isSome
  | .input => v.input.isSome

/-! ## Reading values -/

/-- Every text but the empty one is a path. -/
def readPath (s : Setting) (text : String) : Except Halt String :=
  if text = "" then .error (.noValue s) else .ok text

def readMethod (text : String) : Except Halt Method :=
  match Method.ofName? text with
  | some m => .ok m
  | none => .error (.notAmong .compression text)

def maxLevel : Nat := 9

/-- A whole number with an optional sign; zero may have a minus sign too. -/
def levelDigits : List Char → Except NumberError Nat
  | ['-'] => .error .notADigit
  | '-' :: cs => ByteSize.readDigits 1 0 cs
  | cs => ByteSize.number (maxLevel + 1) cs

def readLevel (text : String) : Except Halt Nat :=
  match levelDigits text.toList with
  | .ok n => .ok n
  | .error .tooLarge => .error (.unreadable .level text s!"not in 0..={maxLevel}")
  | .error e => .error (.unreadable .level text e.message)

def readChunk (text : String) : Except Halt Nat :=
  (ByteSize.parse text).mapError fun e => .unreadable .chunkSize text e.message

/-- Gives a setting its value. That it had one already is told before what is wrong with the
new one. -/
def set (v : Values) (s : Setting) (text : String) : Except Halt Values :=
  if v.has s then .error (.settingTwice s) else
  match s with
  | .base => (readPath s text).map fun x => { v with base := some x }
  | .derived => (readPath s text).map fun x => { v with derived := some x }
  | .diff => (readPath s text).map fun x => { v with diff := some x }
  | .output => (readPath s text).map fun x => { v with output := some x }
  | .outputPlace => (readPath s text).map fun x => { v with outputPlace := some x }
  | .input => (readPath s text).map fun x => { v with input := some x }
  | .compression => (readMethod text).map fun x => { v with compression := some x }
  | .level => (readLevel text).map fun x => { v with level := some x }
  | .chunkSize => (readChunk text).map fun x => { v with chunkSize := some x }

end Values
end CollectionDelta.CommandLine
