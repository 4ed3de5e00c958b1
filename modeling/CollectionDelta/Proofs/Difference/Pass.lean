import CollectionDelta.Difference
import CollectionDelta.Proofs.Names

/-!
The pass over base's listing, by the listings alone.

* `Progress.At`: what the names that came before say about the two working lists.
* `stepAt`, `steps_eq`: what is to be done about a name, by the names before it.
* `mem_addedNames`, `ascending_addedNames`: the names that are left at the end.
-/

namespace CollectionDelta.Difference

/-- The names `before` have been passed: they have been seen, and what derived lists of them is
claimed. -/
structure Progress.At (p : Progress) (derived before : List String) : Prop where
  mem_seen : ∀ n, n ∈ p.seen ↔ n ∈ before
  nodup : p.unclaimed.Nodup
  mem_unclaimed : ∀ n, n ∈ p.unclaimed ↔ n ∈ derived ∧ n ∉ before

variable {policy : DuplicatePolicy} {derived before : List String} {p : Progress}

/-! ## Progress -/

theorem Progress.at_start (derived : List String) : (start derived).At derived [] where
  mem_seen _ := Iff.rfl
  nodup := nodup_eraseDups derived
  mem_unclaimed n := by simp [start]

theorem Progress.At.next (h : p.At derived before) (name : String) :
    (p.next name).At derived (before ++ [name]) where
  mem_seen n := by
    rw [Progress.next, List.mem_cons, h.mem_seen, List.mem_append, List.mem_singleton, or_comm]
  nodup := h.nodup.erase name
  mem_unclaimed n := by
    rw [Progress.next, h.nodup.mem_erase_iff, h.mem_unclaimed, List.mem_append,
      List.mem_singleton, not_or]
    constructor
    · rintro ⟨hne, hd, hb⟩
      exact ⟨hd, hb, hne⟩
    · rintro ⟨hd, hb, hne⟩
      exact ⟨hne, hd, hb⟩

theorem Progress.At.foldl (h : p.At derived before) (names : List String) :
    (names.foldl Progress.next p).At derived (before ++ names) := by
  induction names generalizing p before with
  | nil => rwa [List.append_nil]
  | cons name names ih =>
    have hnext := ih (h.next name)
    rwa [List.append_assoc, List.singleton_append] at hnext

/-! ## Steps -/

/-- What is to be done about a base name, by the base names that come before it. -/
def stepAt (policy : DuplicatePolicy) (derived before : List String) (name : String) : Step :=
  if policy = .reject ∧ name ∈ before then .refuse name
  else if name ∈ derived ∧ name ∉ before then .shared name
  else .removed name

theorem step_eq (h : p.At derived before) (name : String) :
    step policy p name = stepAt policy derived before name := by
  simp only [step, stepAt, h.mem_seen, h.mem_unclaimed]

theorem stepsFrom_eq (h : p.At derived before) (names : List String) :
    stepsFrom policy p names = (names.zipIdx before.length).map fun x =>
      stepAt policy derived ((before ++ names).take x.2) x.1 := by
  induction names generalizing p before with
  | nil => rfl
  | cons name names ih =>
    have hrest := ih (h.next name)
    rw [List.append_assoc, List.singleton_append, List.length_append,
      List.length_singleton] at hrest
    rw [stepsFrom, hrest, List.zipIdx_cons, List.map_cons, List.take_left, step_eq h]

theorem steps_eq (policy : DuplicatePolicy) (derived base : List String) :
    steps policy derived base = base.zipIdx.map fun x =>
      stepAt policy derived (base.take x.2) x.1 :=
  stepsFrom_eq (Progress.at_start derived) base

theorem stepsFrom_append (p : Progress) (names more : List String) :
    stepsFrom policy p (names ++ more) =
      stepsFrom policy p names ++ stepsFrom policy (names.foldl Progress.next p) more := by
  induction names generalizing p with
  | nil => rfl
  | cons name names ih => exact congrArg (step policy p name :: ·) (ih (p.next name))

/-- The pass gets to a repeated name by way of the names before it, and refuses it. -/
theorem steps_append_of_mem (derived : List String) {name : String} (h : name ∈ before)
    (after : List String) : ∃ rest, steps .reject derived (before ++ name :: after) =
      steps .reject derived before ++ .refuse name :: rest := by
  have hat := (Progress.at_start derived).foldl before
  have hrefuse : step .reject (before.foldl Progress.next (.start derived)) name =
      .refuse name := by
    rw [step_eq hat]
    exact if_pos ⟨rfl, h⟩
  rw [steps, stepsFrom_append, stepsFrom, hrefuse]
  exact ⟨_, rfl⟩

/-! ## What is left -/

theorem mem_addedNames {derived base : List String} {n : String} :
    n ∈ addedNames derived base ↔ n ∈ derived ∧ n ∉ base := by
  rw [addedNames, List.mem_mergeSort]
  exact ((Progress.at_start derived).foldl base).mem_unclaimed n

theorem ascending_addedNames (derived base : List String) :
    Ascending (addedNames derived base) :=
  ascending_mergeSort ((Progress.at_start derived).foldl base).nodup

end CollectionDelta.Difference
