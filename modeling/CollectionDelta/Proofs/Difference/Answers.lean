import CollectionDelta.Proofs.Difference.Classification

/-!
What a difference asks of its collections, and what its success says about the answers.

* `Collection.Serves`, `Collection.Steady`: a collection that may refuse resources, but then refuses
  them whole and as streams.
* `Answered`: the calls that a step makes have been answered; `answered_of_performAll`.
* `performAll_congr`: of derived, only the streams of shared names matter.
* `generate_steady`: if the difference of steady collections succeeds, all resources of base and
  those of derived that base lists are served, and the difference is the classification of the
  listings.
-/

namespace CollectionDelta

/-- A resource is served, whole and as a stream. -/
def Collection.Serves (c : Collection) (name : String) (b : Bytes) : Prop :=
  c.read name = .ok b ∧ ∃ s k, c.stream name = .ok s ∧ s.Holds k b .ended

/-- Listed resources may be refused, but no answer is wrong. -/
structure Collection.Steady (c : Collection) (listing : List String)
    (content : String → Bytes) : Prop where
  names_eq : c.names = .ok listing
  serves : ∀ n ∈ listing, ((∃ b, c.read n = .ok b) ∨ ∃ s, c.stream n = .ok s) →
    c.Serves n (content n)
  close_eq : c.close = .ok ()

namespace Difference

variable {base derived derived' : Collection} {lb ld : List String} {cb cd : String → Bytes}
  {comparator : Comparator} {records : List Record}

/-! ## Steps -/

/-- The calls that a step cannot do without are answered. -/
def Answered (base derived : Collection) : Step → Prop
  | .refuse _ => False
  | .removed name => ∃ b, base.read name = .ok b
  | .shared name => (∃ s, base.stream name = .ok s) ∧ ∃ s, derived.stream name = .ok s

theorem answered_of_perform {step : Step}
    (h : (perform comparator base derived step).result = .ok records) :
    Answered base derived step := by
  cases step with
  | refuse name => cases h
  | removed name =>
    cases hread : base.read name with
    | error f => simp [perform, readBase, hread, Except.bind, Except.mapError] at h
    | ok b => exact ⟨b, hread⟩
  | shared name =>
    cases hs : base.stream name with
    | error f => simp [perform, sameContent, openStream, hs, Except.bind, Except.mapError] at h
    | ok s =>
      cases hs' : derived.stream name with
      | error f =>
        simp [perform, sameContent, openStream, hs, hs', Except.bind, Except.mapError] at h
      | ok s' => exact ⟨⟨s, hs⟩, s', hs'⟩

theorem answered_of_performAll {steps : List Step}
    (h : (performAll comparator base derived steps).result = .ok records) :
    ∀ step ∈ steps, Answered base derived step := by
  induction steps generalizing records with
  | nil => exact fun _ hstep => nomatch hstep
  | cons step steps ih =>
    rw [performAll, Traced.result_bind] at h
    cases hstep : (perform comparator base derived step).result with
    | error e => simp [hstep, Except.bind] at h
    | ok kept =>
      rw [hstep] at h
      cases hrest : (performAll comparator base derived steps).result with
      | error e => simp [hrest, Except.bind] at h
      | ok more =>
        intro step' hmem
        rcases List.mem_cons.1 hmem with rfl | hmem
        · exact answered_of_perform hstep
        · exact ih hrest step' hmem

/-- Of derived, the steps ask for the streams of shared names only. -/
theorem performAll_congr {steps : List Step}
    (h : ∀ name, .shared name ∈ steps → derived.stream name = derived'.stream name) :
    performAll comparator base derived steps = performAll comparator base derived' steps := by
  induction steps with
  | nil => rfl
  | cons step steps ih =>
    have hrest := ih fun name hname => h name (List.mem_cons_of_mem step hname)
    have hstep : perform comparator base derived step =
        perform comparator base derived' step := by
      cases step with
      | refuse name => rfl
      | removed name => rfl
      | shared name =>
        have hname := h name (List.mem_cons_self ..)
        simp only [perform, sameContent, openStream, hname]
    rw [performAll, performAll, hstep, hrest]

/-! ## Names -/

/-- What is asked about a name of a listing without repetitions. -/
theorem mem_steps (policy : DuplicatePolicy) (ld : List String) (h : lb.Nodup) {step : Step} :
    step ∈ steps policy ld lb ↔
      ∃ n ∈ lb, step = if n ∈ ld then .shared n else .removed n := by
  have hat : ∀ x ∈ lb.zipIdx, stepAt policy ld (lb.take x.2) x.1 =
      if x.1 ∈ ld then .shared x.1 else .removed x.1 := by
    intro x hx
    have hfirst := not_mem_take_of_nodup h hx
    simp [stepAt, hfirst]
  rw [steps_eq, List.mem_map]
  constructor
  · rintro ⟨x, hx, rfl⟩
    exact ⟨x.1, List.fst_mem_of_mem_zipIdx hx, hat x hx⟩
  · rintro ⟨n, hn, rfl⟩
    obtain ⟨i, hi⟩ := List.getElem?_of_mem hn
    have hx : (n, i) ∈ lb.zipIdx := List.mem_zipIdx_iff_getElem?.2 hi
    exact ⟨(n, i), hx, hat _ hx⟩

/-! ## Differences that succeed -/

/-- Answers as `c` does about its listing and the names `asked`, and serves whatever else is asked. -/
def completed (c : Collection) (asked : List String) (content : String → Bytes) : Collection :=
  { c with
    read := fun n => if n ∈ asked then c.read n else .ok (content n)
    stream := fun n => if n ∈ asked then c.stream n else .ok (.ofBytes (content n)) }

theorem faithful_completed (hd : derived.Steady ld cd)
    (hasked : ∀ n ∈ lb, n ∈ ld → derived.Serves n (cd n)) :
    (completed derived lb cd).Faithful ld cd where
  names_eq := hd.names_eq
  read_eq n hn := by
    by_cases hb : n ∈ lb
    · simpa [completed, hb] using (hasked n hb hn).1
    · simp [completed, hb]
  stream_holds n hn := by
    by_cases hb : n ∈ lb
    · simpa [completed, hb] using (hasked n hb hn).2
    · exact ⟨_, 0, by simp [completed, hb], Stream.holds_ofBytes _⟩
  close_eq := hd.close_eq

theorem generate_steady (hb : base.Steady lb cb) (hd : derived.Steady ld cd) (o : DiffOptions)
    (hnd : lb.Nodup) (h : (generate o base derived).result = .ok records) :
    base.Faithful lb cb ∧ (∀ n ∈ lb, n ∈ ld → derived.Serves n (cd n)) ∧
      records = expected lb ld cb cd := by
  have hperform := h
  rw [result_generate hb.close_eq hd.close_eq, result_reconcile hb.names_eq hd.names_eq] at hperform
  have hanswered : ∀ n ∈ lb,
      Answered base derived (if n ∈ ld then .shared n else .removed n) := by
    cases hkept : (performAll (.ofChunk o.chunk) base derived
        (steps o.duplicates ld lb)).result with
    | error e => rw [hkept] at hperform; cases hperform
    | ok kept =>
      intro n hn
      exact answered_of_performAll hkept _ ((mem_steps o.duplicates ld hnd).2 ⟨n, hn, rfl⟩)
  have hbase : ∀ n ∈ lb, base.Serves n (cb n) := by
    intro n hn
    have hanswer := hanswered n hn
    by_cases hlisted : n ∈ ld
    · rw [if_pos hlisted] at hanswer
      exact hb.serves n hn (.inr hanswer.1)
    · rw [if_neg hlisted] at hanswer
      exact hb.serves n hn (.inl hanswer)
  have hderived : ∀ n ∈ lb, n ∈ ld → derived.Serves n (cd n) := by
    intro n hn hlisted
    have hanswer := hanswered n hn
    rw [if_pos hlisted] at hanswer
    exact hd.serves n hlisted (.inr hanswer.2)
  have hfaithful : base.Faithful lb cb :=
    ⟨hb.names_eq, fun n hn => (hbase n hn).1, fun n hn => (hbase n hn).2, hb.close_eq⟩
  refine ⟨hfaithful, hderived, ?_⟩
  -- what derived would answer about the other names makes no difference
  have hcompleted := faithful_completed hd hderived
  have hsame : (generate o base (completed derived lb cd)).result =
      (generate o base derived).result := by
    rw [result_generate hb.close_eq hd.close_eq, result_reconcile hb.names_eq hd.names_eq,
      result_generate hb.close_eq hcompleted.close_eq,
      result_reconcile hb.names_eq hcompleted.names_eq]
    refine congrArg (Except.map _) (congrArg Traced.result (performAll_congr fun name hname => ?_))
    obtain ⟨n, hn, heq⟩ := (mem_steps o.duplicates ld hnd).1 hname
    split at heq
    · cases heq
      simp [completed, hn]
    · cases heq
  rw [h, generate_nodup hfaithful hcompleted o hnd] at hsame
  exact (Except.ok.inj hsame).symm

end Difference
end CollectionDelta
