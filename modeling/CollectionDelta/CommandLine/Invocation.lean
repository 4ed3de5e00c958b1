import CollectionDelta.CommandLine.Scan
import CollectionDelta.Difference
import CollectionDelta.Format.Codec
import CollectionDelta.Format.Encoding

/-!
What a command line asks for.

* `Manner`: what holds for every command, and may be said on either side of it.
* `DiffRequest`, `RestoreRequest`, `ListRequest`, `Request`: a command with all that it needs.
* `CommandLine.parse`: the invocation that a command line stands for.
-/

namespace CollectionDelta.CommandLine

structure Manner where
  force : Bool := false
  quiet : Bool := false
  json : Bool := false
  verbosity : Nat := 0
  deriving DecidableEq, Repr

structure DiffRequest where
  base : String
  derived : String
  output : Option String
  method : Method := .none
  level : Nat := Codec.defaultLevel
  chunk : Nat := Comparator.defaultChunk
  checksum : Bool := true
  duplicates : DuplicatePolicy := .reject
  deriving DecidableEq, Repr

namespace DiffRequest

def compression (r : DiffRequest) : Compression :=
  match r.method with
  | .none => .none
  | .lzma => .lzma
  | .zlib => .zlib r.level

def diffOptions (r : DiffRequest) : DiffOptions where
  chunk := r.chunk
  duplicates := r.duplicates

def writeOptions (r : DiffRequest) : WriteOptions where
  backend := r.compression.backend?
  checksum := r.checksum

end DiffRequest

structure RestoreRequest where
  derived : String
  diff : String
  output : Option String
  deriving DecidableEq, Repr

structure ListRequest where
  input : String
  verify : Bool
  deriving DecidableEq, Repr

inductive Request
  | diff (request : DiffRequest)
  | restore (request : RestoreRequest)
  | list (request : ListRequest)
  | config
  deriving DecidableEq, Repr

structure Invocation where
  manner : Manner
  request : Request
  deriving DecidableEq, Repr

/-! ## From what was said to what is asked for -/

namespace Scan

/-- Words that exclude each other do so only on the same side of the command. -/
def checkConflicts (s : Scan) : Except Halt Unit :=
  if .quiet ∈ s.flags ∧ 0 < s.verbosity then .error .quietAndVerbose
  else if s.values.output.isSome ∧ s.values.outputPlace.isSome then .error .twoOutputs
  else .ok ()

def output (s : Scan) : Option String := s.values.output.or s.values.outputPlace

/-- The settings that a command needs and that were not given. -/
def lacking (s : Scan) (c : Command) : Halt :=
  .missing (c.needed.filter fun setting => !s.values.has setting)

def request (s : Scan) : Command → Except Halt Request
  | .diff =>
    match s.values.base, s.values.derived with
    | some base, some derived => .ok <| .diff {
        base, derived
        output := s.output
        method := s.values.compression.getD .none
        level := s.values.level.getD Codec.defaultLevel
        chunk := s.values.chunkSize.getD Comparator.defaultChunk
        checksum := .noChecksum ∉ s.flags
        duplicates := if .allowDuplicates ∈ s.flags then .firstWins else .reject }
    | _, _ => .error (s.lacking .diff)
  | .restore =>
    match s.values.derived, s.values.diff with
    | some derived, some diff => .ok (.restore { derived, diff, output := s.output })
    | _, _ => .error (s.lacking .restore)
  | .list =>
    match s.values.input with
    | some input => .ok (.list { input, verify := .noChecksum ∉ s.flags })
    | none => .error (s.lacking .list)
  | .config => .ok .config

end Scan

/-- More than this is not told apart. -/
def maxVerbosity : Nat := 2

/-- A flag may be raised on either side; the count after the command, if there is one, is preferred
to that before it. -/
def mannerOf (outer inner : Scan) : Manner where
  force := .force ∈ outer.flags ++ inner.flags
  quiet := .quiet ∈ outer.flags ++ inner.flags
  json := .json ∈ outer.flags ++ inner.flags
  verbosity :=
    min maxVerbosity (if inner.verbosity = 0 then outer.verbosity else inner.verbosity)

/-- A command and what follows it; what is wrong after the command is told first. -/
def invocation (outer : Scan) (c : Command) (args : List String) : Except Halt Invocation := do
  let g := Grammar.ofCommand c
  let inner ← Scan.all (some c) g { places := g.places } args
  inner.checkConflicts
  let request ← inner.request c
  outer.checkConflicts
  return { manner := mannerOf outer inner, request }

/-- Help about a command, or about all; a command has no commands of its own. -/
def helpAbout : List String → Halt
  | [] => .help none
  | name :: rest =>
    if name = helpWord ∨ (Command.ofName? name).isSome then
      match rest with
      | [] => .help (Command.ofName? name)
      | word :: _ => .unknownCommand word
    else .unknownCommand name

/-- The end of a command line that named no command. -/
def withoutCommand (outer : Scan) : Halt := if outer.isSilent then .silence else .noCommand

/-- A command must not stand after the divider. -/
def afterDivider (outer : Scan) : List String → Halt
  | [] => withoutCommand outer
  | arg :: _ =>
    if arg = helpWord ∨ (Command.ofName? arg).isSome then .unknownArgument arg
    else .unknownCommand arg

def parseAfter (outer : Scan) : List String → Except Halt Invocation
  | [] => .error (withoutCommand outer)
  | arg :: rest =>
    match Shape.ofText arg with
    | .divider => .error (afterDivider outer rest)
    | .long name value? => do parseAfter (← outer.long none .general name value?) rest
    | .cluster cs => do parseAfter (← outer.cluster none .general cs) rest
    | .plain =>
      match Command.ofName? arg with
      | some c => invocation outer c rest
      | none => .error (if arg = helpWord then helpAbout rest else .unknownCommand arg)

def parse (args : List String) : Except Halt Invocation := parseAfter {} args

end CollectionDelta.CommandLine
