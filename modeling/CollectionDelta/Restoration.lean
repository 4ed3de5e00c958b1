import CollectionDelta.Collection.Memory
import CollectionDelta.Release

/-!
Rebuilding base from a derived collection and a difference.

* `Step`, `steps`: what is to be done about each name of derived's listing and then about each
  record that derived does not list, by the listing and the records alone.
* `Counts`: how many resources were copied, restored and skipped, and the bytes handed on.
* `restore`: performs the steps against a place that takes resources; derived is closed at the end
  on every path.
* `toMemory`: the restoration into a collection in memory.
-/

namespace CollectionDelta

structure Counts where
  copied : Nat := 0
  restored : Nat := 0
  skipped : Nat := 0
  bytes : Nat := 0
  deriving DecidableEq, Repr

namespace Restoration

/-! ## Matching the records against the listing -/

inductive Step
  | copy (name : String)
  | put (name : String) (bytes : Bytes)
  | skip (name : String)
  | refuse (name : String) (mismatch : Mismatch)
  deriving DecidableEq, Repr

/-- The first record whose name an earlier one has. -/
def repeatedName? : (seen : List String) → List Record → Option String
  | _, [] => none
  | seen, r :: rest =>
    if r.name ∈ seen then some r.name else repeatedName? (r.name :: seen) rest

def recordOf? (records : List Record) (name : String) : Option Record :=
  records.find? fun r => r.name == name

/-- A name that derived lists. -/
def presentStep (records : List Record) (name : String) : Step :=
  match recordOf? records name with
  | none => .copy name
  | some (.added _) => .skip name
  | some (.modified _ bytes) => .put name bytes
  | some (.removed _ _) => .refuse name .removedButPresent

/-- A record whose name derived does not list. -/
def absentStep : Record → Step
  | .removed name bytes => .put name bytes
  | .added name => .refuse name .missing
  | .modified name _ => .refuse name .missing

def steps (records : List Record) (listing : List String) : List Step :=
  listing.eraseDups.map (presentStep records)
    ++ (records.filter fun r => !listing.contains r.name).map absentStep

/-! ## Performing the steps -/

/-- Takes restored resources, as a function on the state of the place where they go. -/
abbrev Place (σ : Type) := σ → String → Bytes → Except Fault Unit × σ

/-- A run over a place: its journal, its result and the state it leaves. -/
structure Run (σ α : Type) where
  journal : Journal
  result : Except DeltaError α
  state : σ

variable {σ : Type}

/-- Hands one resource on. -/
def hand (place : Place σ) (name : String) (bytes : Bytes) (s : σ) :
    Except DeltaError Unit × σ :=
  match place s name bytes with
  | (.ok (), t) => (.ok (), t)
  | (.error f, t) => (.error (.sink name f), t)

/-- One step: derived is asked in the state in which the step finds the place. -/
def perform (derived : σ → Collection) (place : Place σ) (c : Counts) (s : σ) :
    Step → Run σ Counts
  | .copy name =>
    let note := [.call (.read .derived name)]
    match (derived s).read name with
    | .error f => ⟨note, .error (.lookup .derived name f), s⟩
    | .ok bytes =>
      let (r, t) := hand place name bytes s
      ⟨note, r.map fun _ => { c with copied := c.copied + 1, bytes := c.bytes + bytes.length }, t⟩
  | .put name bytes =>
    let (r, t) := hand place name bytes s
    ⟨[], r.map fun _ => { c with restored := c.restored + 1, bytes := c.bytes + bytes.length }, t⟩
  | .skip _ => ⟨[], .ok { c with skipped := c.skipped + 1 }, s⟩
  | .refuse name mismatch => ⟨[], .error (.inconsistent name mismatch), s⟩

/-- Performs the steps in order, up to the first that fails. -/
def performAll (derived : σ → Collection) (place : Place σ) (c : Counts) (s : σ) :
    List Step → Run σ Counts
  | [] => ⟨[], .ok c, s⟩
  | step :: rest =>
    match perform derived place c s step with
    | ⟨j, .error e, t⟩ => ⟨j, .error e, t⟩
    | ⟨j, .ok c', t⟩ =>
      let more := performAll derived place c' t rest
      ⟨j ++ more.journal, more.result, more.state⟩

/-- Everything but the release of derived. -/
def rebuild (derived : σ → Collection) (place : Place σ) (records : List Record) (s : σ) :
    Run σ Counts :=
  match repeatedName? [] records with
  | some name => ⟨[], .error (.inconsistent name .listedTwice), s⟩
  | none =>
    let note := [.call (.names .derived)]
    match (derived s).names with
    | .error f => ⟨note, .error (.listing .derived f), s⟩
    | .ok listing =>
      let run := performAll derived place {} s (steps records listing)
      ⟨note ++ run.journal, run.result, run.state⟩

/-- Rebuilds base from what derived holds and the records add, handing each resource to a place. -/
def restore (derived : σ → Collection) (place : Place σ) (records : List Record) (s : σ) :
    Run σ Counts :=
  let run := rebuild derived place records s
  let closed := Release.after ⟨run.journal, run.result⟩ (Release.one .derived (derived run.state))
  match closed.result with
  | .error e => ⟨closed.journal, .error e, run.state⟩
  | .ok c =>
    let told := .remark (.restored c.copied c.restored c.skipped c.bytes)
    ⟨closed.journal ++ [told], .ok c, run.state⟩

/-- A place in memory, which refuses nothing. -/
def inMemory : Place Memory := fun m name bytes => (.ok (), m.push name bytes)

def toMemory (derived : Collection) (records : List Record) : Traced DeltaError Memory :=
  let run := restore (fun _ => derived) inMemory records {}
  ⟨run.journal, run.result.map fun _ => run.state⟩

end Restoration
end CollectionDelta
