import CollectionDelta.CommandLine.Values
import CollectionDelta.Text.Padding

/-!
What the program says about its command line.

* `Usage.synopsis`: the form of a command line, for a command or for all.
* `Usage.help`: the synopsis with everything that can be said; the rows come from the grammar.
* `Usage.complaint`: what is wrong with a command line.
-/

namespace CollectionDelta.CommandLine.Usage

def program : String := "resdelta"

def version : String := "0.1.0"

/-! ## What the words are for -/

def aboutProgram : String := "Resource diff generator/restorer"

def aboutCommand : Command → String
  | .diff => "Compute the diff between a base and a derived tree"
  | .restore => "Rebuild the base tree from the derived tree and a diff file"
  | .list => "List the records of a diff file"
  | .config => "Print build/configuration details"

def aboutFlag (topic : Option Command) : Flag → String
  | .force => "Force overwrite existing output files"
  | .quiet => "Quiet mode (suppress non-error output)"
  | .verbose => "Verbose mode (use multiple times for more detail)"
  | .json => "Output stats as JSON to stderr"
  | .noChecksum =>
    if topic = some .list then "Skip checksum verification"
    else "Disable per-record Adler-32 checksums"
  | .allowDuplicates => "Accept repeated base names (later occurrences count as removed)"
  | .help => "Print help"
  | .version => "Print version"

def aboutSetting (topic : Option Command) : Setting → String
  | .base => "Unmodified base tree"
  | .derived =>
    if topic = some .restore then "Transformed tree the diff was computed against"
    else "Transformed tree derived from the base"
  | .diff => "Diff file"
  | .output =>
    if topic = some .restore then "Output directory for the restored base tree"
    else "Diff output file"
  | .compression =>
    "Payload compression for stored base bytes [default: none] [possible values: none, lzma, zlib]"
  | .level => "Compression level (0-9) [default: 6]"
  | .chunkSize =>
    "Content comparison chunk size (supports K/M/G suffix, clamped to 8M) [default: 65536]"
  | .outputPlace =>
    if topic = some .restore then "Output directory (positional form)"
    else "Diff output file (positional form)"
  | .input => "Diff file"

/-! ## Tables -/

/-- A title and rows of two columns, after an empty line. -/
def table (title : String) (rows : List (String × String)) : List String :=
  if rows.isEmpty then [] else
  let width := (rows.map fun r => r.1.length).foldl max 0
  ["", title ++ ":"] ++ rows.map fun r => s!"  {Padding.left width r.1}  {r.2}"

def letterColumn : Option Char → String
  | some c => s!"-{c}, "
  | none => "    "

def flagRow (topic : Option Command) (f : Flag) : String × String :=
  let more := if f = .verbose then "..." else ""
  (s!"{letterColumn f.letter?}--{f.name}{more}", aboutFlag topic f)

def settingRow (topic : Option Command) (s : Setting) : String × String :=
  (letterColumn s.letter? ++ s.shown, aboutSetting topic s)

def placeRow (topic : Option Command) (s : Setting) : String × String :=
  (s.shown, aboutSetting topic s)

def commandRows : List (String × String) :=
  (Command.all.map fun c => (c.name, aboutCommand c))
    ++ [(helpWord, "Print this message or the help of the given subcommand(s)")]

def grammarOf : Option Command → Grammar
  | none => .general
  | some c => .ofCommand c

def synopsis (topic : Option Command) : String :=
  match topic with
  | none => s!"Usage: {program} [OPTIONS] <COMMAND>"
  | some c =>
    let words := (c.needed ++ (Grammar.ofCommand c).places).eraseDups.map Setting.shown
    " ".intercalate (["Usage:", program, c.name, "[OPTIONS]"] ++ words)

def help (topic : Option Command) : String :=
  let g := grammarOf topic
  let title := match topic with
    | none => aboutProgram
    | some c => aboutCommand c
  "\n".intercalate <| [title, "", synopsis topic]
    ++ (if topic = none then table "Commands" commandRows else [])
    ++ table "Arguments" (g.places.map (placeRow topic))
    ++ table "Options" (g.settings.map (settingRow topic) ++ g.flags.map (flagRow topic))

def complaint (h : Halt) : String :=
  "\n".intercalate [s!"error: {h.message}", "", synopsis none, "", "For more information, try '--help'."]

end CollectionDelta.CommandLine.Usage
