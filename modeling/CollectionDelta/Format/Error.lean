import CollectionDelta.Bytes
import CollectionDelta.Fault
import CollectionDelta.Hex

/-!
Why a diff file cannot be written or read.

* `Defect`: what makes a file, or a record to be written, invalid.
* `Lacking`: what a valid file asks for and this library does not have.
* `FormatError`, `FormatError.message`: all causes, and their wording.
-/

namespace CollectionDelta

/-- The longest name, in bytes, that a diff file holds. -/
def maxNameLength : Nat := 65536

/-- The four bytes that open a diff file. -/
def magic : Bytes := [0x52, 0x53, 0x44, 0x46]

inductive Defect
  | wrongMagic (found : Bytes)
  | unknownFlags (flags : UInt8)
  | nameTooLong (bytes : Nat)
  | nameLengthTooLarge (bytes : Nat)
  | unknownKind (code : UInt8)
  | nameNotText
  | rawLengths (name : String) (stored raw : Nat)
  | notCompressed (name : String)
  | unpackedLength (name : String) (found expected : Nat)
  | unknownIndicator (name : String) (code : UInt8)
  | trailingData
  | duplicateRecord (name : String)
  | inBackend (text : String)
  deriving DecidableEq, Repr

def Defect.message : Defect → String
  | .wrongMagic found =>
    s!"invalid diff magic: expected {listed magic}, got {listed found}"
  | .unknownFlags flags => s!"invalid header flag bits: {Hex.marked 2 flags.toNat}"
  | .nameTooLong n => s!"resource name of {n} bytes exceeds {maxNameLength}"
  | .nameLengthTooLarge n => s!"resource name length {n} exceeds {maxNameLength}"
  | .unknownKind code => s!"unknown record kind {Hex.marked 2 code.toNat}"
  | .nameNotText => "resource name is not UTF-8"
  | .rawLengths name stored raw => s!"{name}: raw payload length {stored} != declared {raw}"
  | .notCompressed name => s!"{name}: compressed payload in an uncompressed diff"
  | .unpackedLength name found expected =>
    s!"{name}: decompressed {found} bytes, expected {expected}"
  | .unknownIndicator name code =>
    s!"{name}: unknown payload indicator {Hex.marked 2 code.toNat}"
  | .trailingData => "trailing data after last record"
  | .duplicateRecord name => s!"duplicate record for {name}"
  | .inBackend text => text
where
  listed (b : Bytes) : String :=
    "[" ++ ", ".intercalate (b.map fun x => Hex.upper 2 x.toNat) ++ "]"

inductive Lacking
  | version (version : UInt8)
  | codec (id : UInt8)
  | inBackend (text : String)
  deriving DecidableEq, Repr

def Lacking.message : Lacking → String
  | .version v => s!"diff file version {Hex.marked 2 v.toNat}"
  | .codec id => s!"payload codec ID {id.toNat} (not compiled in)"
  | .inBackend text => text

inductive FormatError
  | io (source : Fault)
  | invalid (defect : Defect)
  | checksumMismatch (name : String) (expected actual : Nat)
  | unsupported (lacking : Lacking)
  deriving DecidableEq, Repr

def FormatError.message : FormatError → String
  | .io source => s!"I/O error: {source.message}"
  | .invalid defect => s!"invalid input: {defect.message}"
  | .checksumMismatch name expected actual =>
    s!"checksum mismatch for {name}: expected {Hex.marked 8 expected}, got {Hex.marked 8 actual}"
  | .unsupported lacking => s!"unsupported: {lacking.message}"

end CollectionDelta
