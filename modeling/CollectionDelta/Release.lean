import CollectionDelta.Error
import CollectionDelta.Journal

/-!
Giving collections back once an operation is over.

* `Release.one`, `Release.both`: close a collection, or base and then derived whatever base answers;
  the first failure is the result.
* `Release.quietly`: a release after a failure, of which a second failure is only remarked.
* `Release.after`: an operation followed by the release of its collections.
-/

namespace CollectionDelta.Release

def one (side : Side) (c : Collection) : Traced Fault Unit := .call (.close side) c.close

def both (base derived : Collection) : Traced Fault Unit where
  journal := (one .base base).journal ++ (one .derived derived).journal
  result :=
    match base.close with
    | .error f => .error f
    | .ok () => derived.close

def quietly (release : Traced Fault Unit) : Journal :=
  match release.result with
  | .ok () => release.journal
  | .error f => release.journal ++ [.remark (.releaseFailed f)]

/-- The release comes last on every path; its failure is the result only if the work succeeded. -/
def after {α : Type} (work : Traced DeltaError α) (release : Traced Fault Unit) :
    Traced DeltaError α :=
  match work.result with
  | .error e => ⟨work.journal ++ quietly release, .error e⟩
  | .ok a => ⟨work.journal ++ release.journal, (release.mapError .close).result.map fun _ => a⟩

end CollectionDelta.Release
