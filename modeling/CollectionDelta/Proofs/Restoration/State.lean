import CollectionDelta.Proofs.Restoration.Fits
import Mathlib.Data.List.Basic

/-!
What a restoration makes of the place that it fills.

* `state_restore_of_place`: what each placing keeps, a whole restoration keeps, wherever it ends.
* `Step.target?`, `Hands`: the name under which a step hands something on, and what that can be.
* `perform_eq_ok`: a step that succeeds has placed what it hands on.
* `performAll_placed`, `restore_placed`: a run that succeeds has placed a resource for each of its
  targets; the invariant speaks of those placed so far.
-/

namespace CollectionDelta.Restoration

variable {σ : Type} {derived : σ → Collection} {place : Place σ}

/-! ## Runs that may fail -/

section Kept

variable {I : σ → Prop}

theorem state_perform_of_place (h : ∀ s name bytes, I s → I (place s name bytes).2) (c : Counts)
    {s : σ} (hs : I s) (step : Step) : I (perform derived place c s step).state := by
  have hhand : ∀ name bytes, I (hand place name bytes s).2 := by
    intro name bytes
    have hplace := h s name bytes hs
    unfold hand
    split <;> simp_all
  cases step with
  | copy name =>
    rw [perform]
    split
    · exact hs
    · exact hhand name _
  | put name bytes => exact hhand name bytes
  | skip name => exact hs
  | refuse name mismatch => exact hs

theorem state_performAll_of_place (h : ∀ s name bytes, I s → I (place s name bytes).2) (c : Counts)
    {s : σ} (hs : I s) (steps : List Step) : I (performAll derived place c s steps).state := by
  induction steps generalizing c s with
  | nil => exact hs
  | cons step steps ih =>
    have hstep : I (perform derived place c s step).state := state_perform_of_place h c hs step
    rw [performAll]
    split
    · next j e t heq =>
      rw [heq] at hstep
      exact hstep
    · next j c' t heq =>
      rw [heq] at hstep
      exact ih c' hstep

/-- What placing a resource keeps, a restoration keeps, wherever it ends. -/
theorem state_restore_of_place (h : ∀ s name bytes, I s → I (place s name bytes).2)
    (records : List Record) {s : σ} (hs : I s) : I (restore derived place records s).state := by
  rw [state_restore, rebuild]
  split
  · exact hs
  · dsimp only
    split
    · exact hs
    · exact state_performAll_of_place h {} hs _

end Kept

/-! ## Runs that succeed -/

/-- The name under which a step hands something on. -/
def Step.target? : Step → Option String
  | .copy name => some name
  | .put name _ => some name
  | .skip _ => none
  | .refuse _ _ => none

theorem map_fst_handed (content : String → Bytes) (steps : List Step) :
    (steps.filterMap (handed content)).map Prod.fst = steps.filterMap Step.target? := by
  rw [List.map_filterMap]
  refine List.filterMap_congr fun step _ => ?_
  cases step <;> rfl

/-- What a step hands on while derived is the collection. -/
inductive Hands (derived : Collection) : Step → String → Bytes → Prop
  | copy {name : String} {bytes : Bytes} (h : derived.read name = .ok bytes) :
      Hands derived (.copy name) name bytes
  | put (name : String) (bytes : Bytes) : Hands derived (.put name bytes) name bytes

theorem hand_eq_ok {name : String} {bytes : Bytes} {s : σ}
    (h : (hand place name bytes s).1 = .ok ()) :
    place s name bytes = (.ok (), (hand place name bytes s).2) := by
  unfold hand at h ⊢
  split at h
  · next t ht => rw [ht]
  · cases h

theorem perform_eq_ok {step : Step} {c c' : Counts} {s : σ}
    (h : (perform derived place c s step).result = .ok c') :
    step.target? = none ∧ (perform derived place c s step).state = s ∨
      ∃ name bytes, step.target? = some name ∧ Hands (derived s) step name bytes ∧
        place s name bytes = (.ok (), (perform derived place c s step).state) := by
  have hhand : ∀ {name bytes} {f : Counts},
      ((hand place name bytes s).1.map fun _ => f) = .ok c' →
      place s name bytes = (.ok (), (hand place name bytes s).2) := by
    intro name bytes f hok
    refine hand_eq_ok ?_
    cases hresult : (hand place name bytes s).1 with
    | error e =>
      rw [hresult] at hok
      cases hok
    | ok _ => rfl
  cases step with
  | copy name =>
    cases hread : (derived s).read name with
    | error f =>
      simp only [perform, hread] at h
      cases h
    | ok bytes =>
      simp only [perform, hread] at h ⊢
      exact .inr ⟨name, bytes, rfl, .copy hread, hhand h⟩
  | put name bytes => exact .inr ⟨name, bytes, rfl, .put name bytes, hhand h⟩
  | skip name => exact .inl ⟨rfl, rfl⟩
  | refuse name mismatch => cases h

theorem performAll_cons_eq_ok {step : Step} {steps : List Step} {c c' : Counts} {s : σ}
    (h : (performAll derived place c s (step :: steps)).result = .ok c') :
    ∃ c₁, let run := perform derived place c s step
      run.result = .ok c₁ ∧ (performAll derived place c₁ run.state steps).result = .ok c' ∧
        (performAll derived place c s (step :: steps)).state =
          (performAll derived place c₁ run.state steps).state := by
  cases hstep : (perform derived place c s step).result with
  | error e =>
    rw [performAll] at h
    generalize perform derived place c s step = run at h hstep
    obtain ⟨journal, result, state⟩ := run
    cases hstep
    cases h
  | ok c₁ =>
    rw [performAll_cons_ok steps hstep] at h ⊢
    exact ⟨c₁, hstep, h, rfl⟩

/-- The invariant holds of what has been placed so far and the state that this has led to. -/
theorem performAll_placed {steps : List Step} {targets : List String}
    (I : List (String × Bytes) → σ → Prop)
    (hplace : ∀ {step placed rest s name bytes t}, step ∈ steps →
      targets = placed.map Prod.fst ++ name :: rest → I placed s →
      Hands (derived s) step name bytes → place s name bytes = (.ok (), t) →
      I (placed ++ [(name, bytes)]) t)
    {placed : List (String × Bytes)} {c c' : Counts} {s : σ}
    (htargets : targets = placed.map Prod.fst ++ steps.filterMap Step.target?) (hs : I placed s)
    (hok : (performAll derived place c s steps).result = .ok c') :
    ∃ all, all.map Prod.fst = targets ∧ I all (performAll derived place c s steps).state := by
  induction steps generalizing placed c s with
  | nil => exact ⟨placed, by simp [htargets], hs⟩
  | cons step steps ih =>
    obtain ⟨c₁, hstep, hrest, hstate⟩ := performAll_cons_eq_ok hok
    have ih := @ih fun hmem => hplace (List.mem_cons_of_mem step hmem)
    rw [hstate]
    rcases perform_eq_ok hstep with ⟨hnone, hsame⟩ | ⟨name, bytes, hname, hhands, hput⟩
    · rw [List.filterMap_cons_none hnone] at htargets
      exact ih htargets (hsame.symm ▸ hs) hrest
    · rw [List.filterMap_cons_some hname] at htargets
      have hnext := hplace (List.mem_cons_self ..) htargets hs hhands hput
      exact ih (by simp [htargets]) hnext hrest

/-- A restoration that succeeds has placed one resource for each name that its steps hand on. -/
theorem restore_placed {records : List Record} {listing targets : List String}
    (h : Fits records listing) (I : List (String × Bytes) → σ → Prop)
    (hplace : ∀ {step placed rest s name bytes t}, step ∈ steps records listing →
      targets = placed.map Prod.fst ++ name :: rest → I placed s →
      Hands (derived s) step name bytes → place s name bytes = (.ok (), t) →
      I (placed ++ [(name, bytes)]) t)
    (hclose : ∀ s, (derived s).close = .ok ()) {s : σ} (hnames : (derived s).names = .ok listing)
    (htargets : targets = (steps records listing).filterMap Step.target?) (hs : I [] s)
    {c : Counts} (hok : (restore derived place records s).result = .ok c) :
    ∃ all, all.map Prod.fst = targets ∧ I all (restore derived place records s).state := by
  rw [result_restore hclose, (rebuild_fits h hnames).1] at hok
  rw [state_restore, (rebuild_fits h hnames).2]
  have hstart : targets =
      ([] : List (String × Bytes)).map Prod.fst ++ (steps records listing).filterMap Step.target? :=
    htargets
  exact performAll_placed I hplace hstart hs hok

end CollectionDelta.Restoration
