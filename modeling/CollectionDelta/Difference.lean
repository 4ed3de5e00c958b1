import CollectionDelta.Comparator
import CollectionDelta.Release

/-!
The difference of a base and a derived collection.

* `DuplicatePolicy`, `DiffOptions`: what a repeated base name means, and the chunk size.
* `Progress`: the pass over base's listing, which takes the names of derived out one by one.
* `Step`, `steps`: what is to be done about each name of base's listing, by the listings alone.
* `addedNames`: the names that are left of derived's at the end, in ascending order.
* `generate`: the records of the difference; both collections are closed at the end on every path.
-/

namespace CollectionDelta

/-- A base name that comes again is an error, or else its later occurrences count as removed. -/
inductive DuplicatePolicy
  | reject | firstWins
  deriving DecidableEq, Repr

def DuplicatePolicy.name : DuplicatePolicy → String
  | .reject => "Reject"
  | .firstWins => "FirstWins"

structure DiffOptions where
  chunk : Nat := Comparator.defaultChunk
  duplicates : DuplicatePolicy := .reject
  deriving DecidableEq, Repr

namespace Difference

/-! ## Reconciling the listings -/

/-- Where the pass over base's listing stands: the base names that came before, and the names of
derived that none of them has claimed. -/
structure Progress where
  seen : List String
  unclaimed : List String
  deriving DecidableEq, Repr

def Progress.start (derived : List String) : Progress := ⟨[], derived.eraseDups⟩

def Progress.next (p : Progress) (name : String) : Progress :=
  ⟨name :: p.seen, p.unclaimed.erase name⟩

inductive Step
  | refuse (name : String)
  | removed (name : String)
  | shared (name : String)
  deriving DecidableEq, Repr

/-- A name that is still unclaimed is shared; later occurrences find it claimed. -/
def step (policy : DuplicatePolicy) (p : Progress) (name : String) : Step :=
  if policy = .reject ∧ name ∈ p.seen then .refuse name
  else if name ∈ p.unclaimed then .shared name
  else .removed name

def stepsFrom (policy : DuplicatePolicy) : Progress → List String → List Step
  | _, [] => []
  | p, name :: rest => step policy p name :: stepsFrom policy (p.next name) rest

def steps (policy : DuplicatePolicy) (derived base : List String) : List Step :=
  stepsFrom policy (.start derived) base

def addedNames (derived base : List String) : List String :=
  (base.foldl Progress.next (.start derived)).unclaimed.mergeSort Collection.nameLe

/-! ## Looking the resources up -/

def readBase (base : Collection) (name : String) : Traced DeltaError Bytes :=
  (Traced.call (.read .base name) (base.read name)).mapError (.lookup .base name)

def openStream (side : Side) (c : Collection) (name : String) : Traced DeltaError Stream :=
  (Traced.call (.stream side name) (c.stream name)).mapError (.lookup side name)

def sameContent (comparator : Comparator) (base derived : Collection) (name : String) :
    Traced DeltaError Bool := do
  let a ← openStream .base base name
  let b ← openStream .derived derived name
  Traced.ofExcept ((comparator.equal a b).equal.mapError (.compare name))

def perform (comparator : Comparator) (base derived : Collection) :
    Step → Traced DeltaError (List Record)
  | .refuse name => .fail (.duplicateName name)
  | .removed name => do
    let bytes ← readBase base name
    Traced.say (.removed name bytes.length)
    return [.removed name bytes]
  | .shared name => do
    if ← sameContent comparator base derived name then return []
    let bytes ← readBase base name
    Traced.say (.modified name)
    return [.modified name bytes]

/-- Performs the steps in order, up to the first that fails. -/
def performAll (comparator : Comparator) (base derived : Collection) :
    List Step → Traced DeltaError (List Record)
  | [] => return []
  | s :: rest => do
    let records ← perform comparator base derived s
    let more ← performAll comparator base derived rest
    return records ++ more

def tellAdded : List String → Traced DeltaError (List Record)
  | [] => return []
  | name :: rest => do
    Traced.say (.added name)
    let more ← tellAdded rest
    return .added name :: more

def listing (side : Side) (c : Collection) : Traced DeltaError (List String) :=
  (Traced.call (.names side) c.names).mapError (.listing side)

def reconcile (options : DiffOptions) (base derived : Collection) :
    Traced DeltaError (List Record) := do
  let derivedNames ← listing .derived derived
  let distinct := derivedNames.eraseDups.length
  if distinct ≠ derivedNames.length then
    Traced.say (.duplicatesCollapsed (derivedNames.length - distinct))
  let baseNames ← listing .base base
  Traced.say (.reconciling baseNames.length distinct)
  let kept ← performAll (.ofChunk options.chunk) base derived
    (steps options.duplicates derivedNames baseNames)
  let added ← tellAdded (addedNames derivedNames baseNames)
  return kept ++ added

def generate (options : DiffOptions) (base derived : Collection) :
    Traced DeltaError (List Record) := do
  let records ← Release.after (reconcile options base derived) (Release.both base derived)
  Traced.say (.compared (.ofRecords records))
  return records

end Difference
end CollectionDelta
