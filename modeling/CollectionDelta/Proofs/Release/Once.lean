import CollectionDelta.Difference
import CollectionDelta.Proofs.Restoration.Fits

/-!
Collections are closed once, at the end, and on every path.

* `Difference.working_reconcile`, `Restoration.working_rebuild`: reconciling and rebuilding close
  nothing, whichever call fails.
* `Release.released_once`: the calls, the result and the warnings of both operations.
-/

namespace CollectionDelta

/-! ## Reconciling -/

namespace Difference

theorem working_listing (side : Side) (c : Collection) : (listing side c).Working :=
  (Traced.working_call (by nofun) _).mapError _

theorem working_readBase (base : Collection) (name : String) : (readBase base name).Working :=
  (Traced.working_call (by nofun) _).mapError _

theorem working_openStream (side : Side) (c : Collection) (name : String) :
    (openStream side c name).Working :=
  (Traced.working_call (by nofun) _).mapError _

theorem working_sameContent (comparator : Comparator) (base derived : Collection) (name : String) :
    (sameContent comparator base derived name).Working :=
  (working_openStream .base base name).bind fun _ =>
    (working_openStream .derived derived name).bind fun _ => Traced.working_ofExcept _

theorem working_perform (comparator : Comparator) (base derived : Collection) (step : Step) :
    (perform comparator base derived step).Working := by
  cases step with
  | refuse name => exact Traced.working_fail _
  | removed name =>
    refine (working_readBase base name).bind fun bytes => ?_
    exact (Traced.working_say (by nofun)).bind fun _ => Traced.working_pure _
  | shared name =>
    refine (working_sameContent comparator base derived name).bind fun same => ?_
    cases same with
    | true => exact Traced.working_pure _
    | false =>
      refine (working_readBase base name).bind fun bytes => ?_
      exact (Traced.working_say (by nofun)).bind fun _ => Traced.working_pure _

theorem working_performAll (comparator : Comparator) (base derived : Collection)
    (steps : List Step) : (performAll comparator base derived steps).Working := by
  induction steps with
  | nil => exact Traced.working_pure _
  | cons step steps ih =>
    refine (working_perform comparator base derived step).bind fun records => ?_
    exact ih.bind fun more => Traced.working_pure _

theorem working_tellAdded (names : List String) : (tellAdded names).Working := by
  induction names with
  | nil => exact Traced.working_pure _
  | cons name names ih =>
    refine (Traced.working_say (by nofun)).bind fun _ => ?_
    exact ih.bind fun more => Traced.working_pure _

theorem working_reconcile (o : DiffOptions) (base derived : Collection) :
    (reconcile o base derived).Working := by
  have hrest (derivedNames : List String) (distinct : Nat) : Traced.Working (do
      let baseNames ← listing .base base
      Traced.say (.reconciling baseNames.length distinct)
      let kept ← performAll (.ofChunk o.chunk) base derived
        (steps o.duplicates derivedNames baseNames)
      let added ← tellAdded (addedNames derivedNames baseNames)
      return kept ++ added) := by
    refine (working_listing .base base).bind fun baseNames => ?_
    refine (Traced.working_say (by nofun)).bind fun _ => ?_
    refine (working_performAll _ base derived _).bind fun kept => ?_
    exact (working_tellAdded _).bind fun added => Traced.working_pure _
  refine (working_listing .derived derived).bind fun derivedNames => ?_
  dsimp only
  split
  · exact (Traced.working_say (by nofun)).bind fun _ => hrest derivedNames _
  · exact hrest derivedNames _

end Difference

/-! ## Rebuilding -/

namespace Restoration

variable {σ : Type}

theorem working_perform (derived : σ → Collection) (place : Place σ) (c : Counts) (s : σ)
    (step : Step) : (perform derived place c s step).traced.Working := by
  cases step with
  | copy name =>
    have hread : Journal.Working [.call (.read .derived name)] := Journal.working_singleton nofun
    rw [perform]
    cases (derived s).read name with
    | error f => exact hread
    | ok bytes => exact hread
  | put name bytes => exact Journal.working_nil
  | skip name => exact Journal.working_nil
  | refuse name mismatch => exact Journal.working_nil

theorem working_performAll (derived : σ → Collection) (place : Place σ) (c : Counts) (s : σ)
    (steps : List Step) : (performAll derived place c s steps).traced.Working := by
  induction steps generalizing c s with
  | nil => exact Journal.working_nil
  | cons step steps ih =>
    have hstep := working_perform derived place c s step
    rw [performAll]
    split
    · next j e t heq =>
      rw [heq] at hstep
      exact hstep
    · next j c' t heq =>
      rw [heq] at hstep
      exact Journal.Working.append hstep (ih c' t)

theorem working_rebuild (derived : σ → Collection) (place : Place σ) (records : List Record)
    (s : σ) : (rebuild derived place records s).traced.Working := by
  have hnames : Journal.Working [.call (.names .derived)] := Journal.working_singleton nofun
  rw [rebuild]
  cases repeatedName? [] records with
  | some name => exact Journal.working_nil
  | none =>
    dsimp only
    cases (derived s).names with
    | error f => exact hnames
    | ok listing => exact hnames.append (working_performAll derived place {} s _)

end Restoration

/-! ## The operations -/

namespace Release

theorem failure?_one (side : Side) (c : Collection) :
    failure? (one side c).result = firstFailure [c.close] := by
  rw [one, Traced.result_call]
  cases c.close <;> rfl

theorem failure?_both (base derived : Collection) :
    failure? (both base derived).result = firstFailure [base.close, derived.close] := by
  rw [both]
  cases base.close with
  | error f => rfl
  | ok u => cases derived.close <;> rfl

/-- Making a difference ends with the closing of base and then of derived, and restoring with that
of derived, on every path and nowhere else. A failure to close is the result only of an operation
that has succeeded until then; the first one is warned of if there is another failure. -/
theorem released_once (o : DiffOptions) (base derived : Collection) :
    Closing [.base, .derived] (firstFailure [base.close, derived.close])
        (Difference.reconcile o base derived) (Difference.generate o base derived) ∧
      ∀ (σ : Type) (derivedAt : σ → Collection) (place : Restoration.Place σ)
        (records : List Record) (s : σ),
        let work := Restoration.rebuild derivedAt place records s
        let run := Restoration.restore derivedAt place records s
        Closing [.derived] (firstFailure [(derivedAt run.state).close]) work.traced run.traced ∧
          run.state = work.state := by
  constructor
  · have h := closing_after (Difference.working_reconcile o base derived)
      (show (both base derived).journal = [Side.base, .derived].map fun side => .call (.close side)
        from rfl)
    rw [failure?_both] at h
    exact h.tell fun records => by nofun
  · intro σ derivedAt place records s work run
    have hstate : run.state = work.state := Restoration.state_restore records s
    have h := closing_after (Restoration.working_rebuild derivedAt place records s)
      (show (one .derived (derivedAt run.state)).journal =
        [Side.derived].map fun side => .call (.close side) from rfl)
    refine ⟨?_, hstate⟩
    rw [failure?_one, hstate] at h
    rw [hstate, Restoration.traced_restore]
    exact h.tell fun c => by nofun

end Release
end CollectionDelta
