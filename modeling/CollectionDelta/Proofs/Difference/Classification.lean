import CollectionDelta.Proofs.Collection
import CollectionDelta.Proofs.Comparator
import CollectionDelta.Proofs.Difference.Pass
import CollectionDelta.Proofs.Release
import Mathlib.Data.List.Basic

/-!
A difference is the classification of the names that the two collections list.

* `classified`, `classifiedAt`: the record of a base name, if it has one.
* `expected`: the difference of listings and contents; `mem_expected` says what is in it.
* `result_perform`, `result_steps`: what the steps come to where no call fails.
* `generate_nodup`, `generate_firstRepeat`: a listing without and with a repeated name.
* `generate_classifies`: the difference for both policies and for every chunk size.
-/

namespace CollectionDelta.Difference

/-- The record of a base name of which this is the first occurrence: nothing is said about a name
that has the same content on both sides. -/
def classified (listed : List String) (content content' : String → Bytes) (name : String) :
    Option Record :=
  if name ∉ listed then some (.removed name (content name))
  else if content name ≠ content' name then some (.modified name (content name))
  else none

/-- The record of any occurrence; a name that came `before` counts as removed. -/
def classifiedAt (listed : List String) (content content' : String → Bytes)
    (before : List String) (name : String) : Option Record :=
  if name ∈ before then some (.removed name (content name))
  else classified listed content content' name

/-- The records of base's names in base's order, then those of the names that only derived lists. -/
def expected (lb ld : List String) (cb cd : String → Bytes) : List Record :=
  lb.filterMap (classified ld cb cd) ++ (addedNames ld lb).map .added

variable {base derived : Collection} {lb ld : List String} {cb cd : String → Bytes}

/-! ## Steps -/

theorem result_readBase (hb : base.Faithful lb cb) {name : String} (h : name ∈ lb) :
    (readBase base name).result = .ok (cb name) := by
  simp [readBase, hb.read_eq name h, Except.mapError]

theorem result_sameContent (hb : base.Faithful lb cb) (hd : derived.Faithful ld cd)
    (comparator : Comparator) {name : String} (h : name ∈ lb) (h' : name ∈ ld) :
    (sameContent comparator base derived name).result = .ok (decide (cb name = cd name)) := by
  obtain ⟨s, n, hs, hn⟩ := hb.stream_holds name h
  obtain ⟨s', n', hs', hn'⟩ := hd.stream_holds name h'
  simp [sameContent, openStream, hs, hs', comparator.equal_holds hn hn', Except.mapError,
    Except.bind]

theorem result_perform (hb : base.Faithful lb cb) (hd : derived.Faithful ld cd)
    (comparator : Comparator) {policy : DuplicatePolicy} {before : List String} {name : String}
    (h : name ∈ lb) (hrefuse : ¬ (policy = .reject ∧ name ∈ before)) :
    (perform comparator base derived (stepAt policy ld before name)).result =
      .ok (classifiedAt ld cb cd before name).toList := by
  have hread := result_readBase hb h
  rw [stepAt, if_neg hrefuse]
  by_cases hbefore : name ∈ before
  · simp [perform, classifiedAt, hbefore, hread, Except.bind]
  · by_cases hlisted : name ∈ ld
    · have hsame := result_sameContent hb hd comparator h hlisted
      by_cases heq : cb name = cd name
      · simp [perform, classifiedAt, classified, hbefore, hlisted, hsame, heq, Except.bind]
      · simp [perform, classifiedAt, classified, hbefore, hlisted, hsame, heq, hread, Except.bind]
    · simp [perform, classifiedAt, classified, hbefore, hlisted, hread, Except.bind]

theorem result_performAll_map (comparator : Comparator) {ι : Type} {steps : ι → Step}
    {records : ι → Option Record} {is : List ι}
    (h : ∀ i ∈ is, (perform comparator base derived (steps i)).result = .ok (records i).toList) :
    (performAll comparator base derived (is.map steps)).result = .ok (is.filterMap records) := by
  induction is with
  | nil => rfl
  | cons i is ih =>
    have hi := h i (List.mem_cons_self ..)
    have his := ih fun j hj => h j (List.mem_cons_of_mem _ hj)
    simp only [List.map_cons, performAll, Traced.result_bind, hi, his, Except.bind,
      Traced.pure_result]
    cases hr : records i <;> simp [hr]

theorem result_performAll_append (comparator : Comparator) (steps more : List Step) :
    (performAll comparator base derived (steps ++ more)).result =
      (performAll comparator base derived steps).result.bind fun records =>
        (performAll comparator base derived more).result.map (records ++ ·) := by
  induction steps with
  | nil =>
    cases h : (performAll comparator base derived more).result with
    | ok records => simp [performAll, h, Except.bind, Except.map]
    | error e => simp [performAll, h, Except.bind, Except.map]
  | cons s steps ih =>
    simp only [List.cons_append, performAll, Traced.result_bind, ih]
    cases (perform comparator base derived s).result with
    | error e => rfl
    | ok records =>
      cases (performAll comparator base derived steps).result with
      | error e => rfl
      | ok records' =>
        cases (performAll comparator base derived more).result with
        | error e => rfl
        | ok records'' => simp [Except.bind, Except.map]

theorem not_mem_take_of_nodup {names : List String} (h : names.Nodup) {x : String × Nat}
    (hx : x ∈ names.zipIdx) : x.1 ∉ names.take x.2 := by
  intro htake
  have hdrop : x.1 ∈ names.drop x.2 := by
    rw [List.mem_zipIdx_iff_getElem?] at hx
    refine List.mem_of_getElem? (i := 0) ?_
    rwa [List.getElem?_drop, Nat.add_zero]
  rw [← List.take_append_drop x.2 names, List.nodup_append] at h
  exact h.2.2 x.1 htake x.1 hdrop rfl

theorem result_steps (hb : base.Faithful lb cb) (hd : derived.Faithful ld cd)
    (comparator : Comparator) (policy : DuplicatePolicy) {names : List String}
    (hsub : names ⊆ lb)
    (hrefuse : ∀ x ∈ names.zipIdx, ¬ (policy = .reject ∧ x.1 ∈ names.take x.2)) :
    (performAll comparator base derived (steps policy ld names)).result =
      .ok (names.zipIdx.filterMap fun x => classifiedAt ld cb cd (names.take x.2) x.1) := by
  rw [steps_eq]
  refine result_performAll_map comparator fun x hx => ?_
  exact result_perform hb hd comparator (hsub (List.fst_mem_of_mem_zipIdx hx)) (hrefuse x hx)

/-! ## The whole difference -/

theorem result_tellAdded (names : List String) :
    (tellAdded names).result = .ok (names.map .added) := by
  induction names with
  | nil => rfl
  | cons name names ih => simp [tellAdded, ih, Except.bind]

theorem result_reconcile (hlb : base.names = .ok lb) (hld : derived.names = .ok ld)
    (o : DiffOptions) : (reconcile o base derived).result =
      (performAll (.ofChunk o.chunk) base derived (steps o.duplicates ld lb)).result.map
        (· ++ (addedNames ld lb).map .added) := by
  have hlb : (listing .base base).result = .ok lb := by
    simp [listing, hlb, Except.mapError]
  have hld : (listing .derived derived).result = .ok ld := by
    simp [listing, hld, Except.mapError]
  simp only [reconcile, Traced.result_bind, hld, Except.bind]
  -- a remark on names that derived repeats may come first, and has no bearing on the result
  split
  all_goals
    simp only [Traced.result_bind, Traced.result_say, hlb, result_tellAdded, Except.bind]
    cases (performAll (.ofChunk o.chunk) base derived (steps o.duplicates ld lb)).result <;> rfl

theorem result_generate (hb : base.close = .ok ()) (hd : derived.close = .ok ())
    (o : DiffOptions) : (generate o base derived).result = (reconcile o base derived).result := by
  have hafter := Release.result_after (reconcile o base derived) (Release.result_both hb hd)
  simp only [generate, Traced.result_bind, hafter]
  cases (reconcile o base derived).result <;> rfl

/-- A base listing that repeats no name is classified name by name, whatever the policy. -/
theorem generate_nodup (hb : base.Faithful lb cb) (hd : derived.Faithful ld cd)
    (o : DiffOptions) (h : lb.Nodup) :
    (generate o base derived).result = .ok (expected lb ld cb cd) := by
  have hfirst : ∀ x ∈ lb.zipIdx, x.1 ∉ lb.take x.2 := fun x hx => not_mem_take_of_nodup h hx
  have hkept : (lb.zipIdx.filterMap fun x => classifiedAt ld cb cd (lb.take x.2) x.1) =
      lb.filterMap (classified ld cb cd) := by
    calc (lb.zipIdx.filterMap fun x => classifiedAt ld cb cd (lb.take x.2) x.1)
        = lb.zipIdx.filterMap fun x => classified ld cb cd x.1 :=
          List.filterMap_congr fun x hx => if_neg (hfirst x hx)
      _ = (lb.zipIdx.map Prod.fst).filterMap (classified ld cb cd) := by
          rw [List.filterMap_map]
          rfl
      _ = lb.filterMap (classified ld cb cd) := by rw [List.zipIdx_map_fst]
  rw [result_generate hb.close_eq hd.close_eq,
    result_reconcile hb.names_eq hd.names_eq,
    result_steps hb hd _ _ (fun _ hn => hn) fun x hx hr => hfirst x hx hr.2, hkept]
  rfl

theorem generate_firstWins (hb : base.Faithful lb cb) (hd : derived.Faithful ld cd)
    (chunk : Nat) : (generate ⟨chunk, .firstWins⟩ base derived).result =
      .ok ((lb.zipIdx.filterMap fun x => classifiedAt ld cb cd (lb.take x.2) x.1) ++
        (addedNames ld lb).map .added) := by
  rw [result_generate hb.close_eq hd.close_eq,
    result_reconcile hb.names_eq hd.names_eq,
    result_steps hb hd _ _ (fun _ hn => hn) fun x _ hr => by cases hr.1]
  rfl

/-- A repeated base name is refused when it comes again, after the names before it. -/
theorem generate_firstRepeat (hb : base.Faithful lb cb) (hd : derived.Faithful ld cd)
    (chunk : Nat) {name : String} (h : FirstRepeat lb name) :
    (generate ⟨chunk, .reject⟩ base derived).result = .error (.duplicateName name) := by
  obtain ⟨before, after, rfl, hnd, hmem⟩ := h
  obtain ⟨rest, hrest⟩ := steps_append_of_mem ld hmem after
  have hbefore := result_steps hb hd (.ofChunk chunk) .reject
    (List.subset_append_left before (name :: after))
    fun x hx hr => not_mem_take_of_nodup hnd hx hr.2
  rw [result_generate hb.close_eq hd.close_eq,
    result_reconcile hb.names_eq hd.names_eq, hrest, result_performAll_append, hbefore]
  rfl

/-! ## The records of a difference -/

theorem mem_expected {r : Record} : r ∈ expected lb ld cb cd ↔
    match r with
    | .added name => name ∈ ld ∧ name ∉ lb
    | .removed name bytes => name ∈ lb ∧ name ∉ ld ∧ bytes = cb name
    | .modified name bytes =>
      name ∈ lb ∧ name ∈ ld ∧ cb name ≠ cd name ∧ bytes = cb name := by
  have hclassified : ∀ name, classified ld cb cd name = some r ↔
      (name ∉ ld ∧ r = .removed name (cb name)) ∨
        (name ∈ ld ∧ cb name ≠ cd name ∧ r = .modified name (cb name)) := by
    intro name
    unfold classified
    split
    · next hname => simp [hname, eq_comm]
    · next hname =>
      have hname : name ∈ ld := Classical.not_not.1 hname
      split
      · next hne => simp [hname, hne, eq_comm]
      · next heq => simp [hname, Classical.not_not.1 heq]
  simp only [expected, List.mem_append, List.mem_filterMap, List.mem_map, mem_addedNames,
    hclassified]
  cases r with
  | added name => simp
  | removed name bytes =>
    constructor
    · rintro (⟨n, hn, ⟨hd, hr⟩ | ⟨-, -, hr⟩⟩ | ⟨n, -, hr⟩)
      · cases hr
        exact ⟨hn, hd, rfl⟩
      · cases hr
      · cases hr
    · rintro ⟨hn, hd, rfl⟩
      exact .inl ⟨name, hn, .inl ⟨hd, rfl⟩⟩
  | modified name bytes =>
    constructor
    · rintro (⟨n, hn, ⟨-, hr⟩ | ⟨hd, hne, hr⟩⟩ | ⟨n, -, hr⟩)
      · cases hr
      · cases hr
        exact ⟨hn, hd, hne, rfl⟩
      · cases hr
    · rintro ⟨hn, hd, hne, rfl⟩
      exact .inl ⟨name, hn, .inr ⟨hd, hne, rfl⟩⟩

theorem map_name_classified (listed names : List String) (content content' : String → Bytes) :
    (names.filterMap (classified listed content content')).map Record.name =
      names.filter fun n => n ∉ listed ∨ content n ≠ content' n := by
  induction names with
  | nil => rfl
  | cons name names ih =>
    by_cases hlisted : name ∈ listed
    · by_cases heq : content name = content' name
      · simpa [List.filterMap_cons, classified, hlisted, heq] using ih
      · simpa [List.filterMap_cons, classified, hlisted, heq, Record.name] using ih
    · simpa [List.filterMap_cons, classified, hlisted, Record.name] using ih

/-- No two records of a difference are about one name. -/
theorem nodup_expected (h : lb.Nodup) : ((expected lb ld cb cd).map Record.name).Nodup := by
  have hadded : ((addedNames ld lb).map Record.added).map Record.name = addedNames ld lb := by
    rw [List.map_map]
    exact List.map_id _
  rw [expected, List.map_append, map_name_classified, hadded, List.nodup_append]
  refine ⟨h.filter _, (ascending_addedNames ld lb).nodup, ?_⟩
  rintro n hn _ hn' rfl
  exact (mem_addedNames.1 hn').2 (List.mem_of_mem_filter hn)

/-! ## The classification -/

/-- The difference says of every name what the two collections say of it, and of no name anything
else; the records of base's names come in base's order, those of the names that only derived lists
in theirs. A base name that comes again is refused, or counts as removed each time. -/
theorem generate_classifies (hb : base.Faithful lb cb) (hd : derived.Faithful ld cd)
    (chunk : Nat) : ∃ added : List String, Ascending added ∧
      (∀ n, n ∈ added ↔ n ∈ ld ∧ n ∉ lb) ∧
      (∀ name, (generate ⟨chunk, .reject⟩ base derived).result = .error (.duplicateName name) ↔
        FirstRepeat lb name) ∧
      ((∀ name, ¬ FirstRepeat lb name) → ∃ records,
        (generate ⟨chunk, .reject⟩ base derived).result = .ok records ∧
        records = lb.filterMap (classified ld cb cd) ++ added.map .added ∧
        (records.map Record.name).Nodup) ∧
      (generate ⟨chunk, .firstWins⟩ base derived).result =
        .ok ((lb.zipIdx.filterMap fun x => classifiedAt ld cb cd (lb.take x.2) x.1) ++
          added.map .added) := by
  refine ⟨addedNames ld lb, ascending_addedNames ld lb, fun n => mem_addedNames, ?_, ?_,
    generate_firstWins hb hd chunk⟩
  · intro name
    constructor
    · intro hname
      rcases nodup_or_firstRepeat lb with hnd | ⟨name', hname'⟩
      · rw [generate_nodup hb hd ⟨chunk, .reject⟩ hnd] at hname
        cases hname
      · rw [generate_firstRepeat hb hd chunk hname'] at hname
        cases hname
        exact hname'
    · exact generate_firstRepeat hb hd chunk
  · intro hnone
    have hnd : lb.Nodup := (nodup_or_firstRepeat lb).resolve_right fun ⟨name, h⟩ => hnone name h
    exact ⟨_, generate_nodup hb hd ⟨chunk, .reject⟩ hnd, rfl, nodup_expected hnd⟩

theorem generate_inMemory : ∃ added : List String, Ascending added ∧
    (∀ n, n ∈ added ↔ n ∈ ["c", "a"] ∧ n ∉ ["a", "b", "b"]) ∧
    (generate ⟨2, .firstWins⟩ (Memory.ofList [("a", [1, 2, 3]), ("b", []), ("b", [4])]).toCollection
      (Memory.ofList [("c", []), ("a", [1, 2])]).toCollection).result =
      .ok ([.modified "a" [1, 2, 3], .removed "b" [4], .removed "b" [4]] ++ added.map .added) := by
  obtain ⟨added, hasc, hmem, -, -, hfirst⟩ := generate_classifies
    (Memory.faithful_toCollection (m := .ofList [("a", [1, 2, 3]), ("b", []), ("b", [4])]) rfl)
    (Memory.faithful_toCollection (m := .ofList [("c", []), ("a", [1, 2])]) rfl) 2
  exact ⟨added, hasc, hmem, hfirst⟩

end CollectionDelta.Difference
