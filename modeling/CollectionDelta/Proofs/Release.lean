import CollectionDelta.Release

/-!
What a release does to the operation that it ends.

* `Journal.Working`, `Traced.Working`: work closes nothing and warns of nothing; kept by the steps
  of which a run is made.
* `outcome_after`, `journal_after`: the result and the journal after a release; `result_after` and
  `result_both` are about a release that succeeds.
* `Closing`: a run is some work and then the closing of its collections; `closing_after` says that
  `Release.after` makes such a run, and `Closing.tell` that it may end in a remark.
-/

namespace CollectionDelta

/-! ## Work -/

/-- Left behind by work, and not by a release. -/
def Note.Working : Note → Prop
  | .call c => ∀ side, c ≠ .close side
  | .remark r => r.level ≠ .warn

def Journal.Working (j : Journal) : Prop := ∀ n ∈ j, n.Working

/-- The warnings of a run. -/
def Journal.warnings (j : Journal) : List Remark := j.remarks.filter fun r => r.level = .warn

namespace Journal

theorem warnings_append (j k : Journal) : warnings (j ++ k) = warnings j ++ warnings k := by
  rw [warnings, remarks_append, List.filter_append]
  rfl

theorem working_nil : Working [] := fun _ h => absurd h List.not_mem_nil

theorem working_singleton {n : Note} (h : n.Working) : Working [n] := by
  intro m hm
  rwa [List.mem_singleton.1 hm]

theorem Working.append {j k : Journal} (hj : Working j) (hk : Working k) : Working (j ++ k) :=
  fun n hn => (List.mem_append.1 hn).elim (hj n) (hk n)

theorem Working.not_close {j : Journal} (h : Working j) (side : Side) : .close side ∉ j.calls := by
  intro hmem
  obtain ⟨n, hn, hcall⟩ := List.mem_filterMap.1 hmem
  cases n with
  | remark r => cases hcall
  | call c =>
    cases hcall
    exact h _ hn side rfl

theorem Working.warnings_eq {j : Journal} (h : Working j) : j.warnings = [] := by
  rw [warnings, List.filter_eq_nil_iff]
  intro r hr hwarn
  obtain ⟨n, hn, hremark⟩ := List.mem_filterMap.1 hr
  cases n with
  | call c => cases hremark
  | remark r' =>
    cases hremark
    exact h _ hn (of_decide_eq_true hwarn)

end Journal

namespace Traced

variable {ε ε' α β : Type}

/-- A run that does work only, on whatever path. -/
def Working (m : Traced ε α) : Prop := m.journal.Working

theorem working_pure (a : α) : (pure a : Traced ε α).Working := Journal.working_nil

theorem working_fail (e : ε) : (fail e : Traced ε α).Working := Journal.working_nil

theorem working_ofExcept (r : Except ε α) : (ofExcept r).Working := Journal.working_nil

theorem working_say {r : Remark} (h : r.level ≠ .warn) : (say r : Traced ε Unit).Working :=
  Journal.working_singleton h

theorem working_call {c : Call} (h : ∀ side, c ≠ .close side) (answer : Except ε α) :
    (call c answer).Working :=
  Journal.working_singleton h

theorem Working.mapError {m : Traced ε α} (h : m.Working) (f : ε → ε') : (m.mapError f).Working := h

theorem Working.bind {m : Traced ε α} {k : α → Traced ε β} (hm : m.Working)
    (hk : ∀ a, (k a).Working) : (m >>= k).Working := by
  cases h : m.result with
  | ok a =>
    rw [bind_ok h]
    exact Journal.Working.append hm (hk a)
  | error e =>
    rw [bind_error h]
    exact hm

end Traced

namespace Release

variable {α : Type}

/-! ## What a release adds -/

def failure? : Except Fault Unit → Option Fault
  | .ok () => none
  | .error f => some f

/-- What an operation comes to: a failure of the work stands, whatever the release answers. -/
def outcome (work : Except DeltaError α) (failure : Option Fault) : Except DeltaError α :=
  match work, failure with
  | .error e, _ => .error e
  | .ok _, some f => .error (.close f)
  | .ok a, none => .ok a

/-- A failure of the release is warned of if it is not the result. -/
def warned (work : Except DeltaError α) (failure : Option Fault) : List Remark :=
  match work, failure with
  | .error _, some f => [.releaseFailed f]
  | .error _, none => []
  | .ok _, _ => []

theorem outcome_after (work : Traced DeltaError α) (release : Traced Fault Unit) :
    (after work release).result = outcome work.result (failure? release.result) := by
  rw [after]
  cases work.result with
  | error e => rfl
  | ok a =>
    rw [Traced.result_mapError]
    cases release.result <;> rfl

theorem journal_after (work : Traced DeltaError α) (release : Traced Fault Unit) :
    (after work release).journal =
      work.journal ++ (release.journal ++
        (warned work.result (failure? release.result)).map .remark) := by
  rw [after]
  cases work.result with
  | ok a => exact congrArg _ (List.append_nil _).symm
  | error e =>
    rw [quietly]
    cases release.result with
    | ok u => exact congrArg _ (List.append_nil _).symm
    | error f => rfl

theorem result_after (work : Traced DeltaError α) {release : Traced Fault Unit}
    (h : release.result = .ok ()) : (after work release).result = work.result := by
  rw [outcome_after, h]
  cases work.result <;> rfl

theorem result_both {base derived : Collection} (hb : base.close = .ok ())
    (hd : derived.close = .ok ()) : (both base derived).result = .ok () := by
  simp only [both, hb, hd]

/-! ## Work and then its release -/

/-- The first failure of releases that are made in turn. -/
def firstFailure (answers : List (Except Fault Unit)) : Option Fault := answers.findSome? failure?

/-- A run is the work, which closes nothing, and then the closing of the collections at `sides`, of
which `failure` is the first failure. -/
structure Closing (sides : List Side) (failure : Option Fault) (work run : Traced DeltaError α) :
    Prop where
  calls_eq : run.journal.calls = work.journal.calls ++ sides.map .close
  not_close : ∀ side, .close side ∉ work.journal.calls
  result_eq : run.result = outcome work.result failure
  warnings_eq : run.journal.warnings = warned work.result failure

theorem calls_closed (sides : List Side) :
    Journal.calls (sides.map fun side => .call (.close side)) = sides.map .close := by
  rw [Journal.calls, List.filterMap_map]
  show List.filterMap (fun side => some (Call.close side)) sides = _
  rw [List.filterMap_eq_map']

theorem warnings_closed (sides : List Side) :
    Journal.warnings (sides.map fun side => .call (.close side)) = [] := by
  rw [Journal.warnings, Journal.remarks, List.filterMap_map]
  simp

theorem calls_warned (work : Except DeltaError α) (failure : Option Fault) :
    Journal.calls ((warned work failure).map .remark) = [] := by
  cases work <;> cases failure <;> rfl

theorem warnings_warned (work : Except DeltaError α) (failure : Option Fault) :
    Journal.warnings ((warned work failure).map .remark) = warned work failure := by
  cases work <;> cases failure <;> rfl

theorem closing_after {sides : List Side} {work : Traced DeltaError α} {release : Traced Fault Unit}
    (hwork : work.Working)
    (hrelease : release.journal = sides.map fun side => .call (.close side)) :
    Closing sides (failure? release.result) work (after work release) where
  calls_eq := by
    rw [journal_after, Journal.calls_append, Journal.calls_append, hrelease, calls_closed,
      calls_warned, List.append_nil]
  not_close := Journal.Working.not_close hwork
  result_eq := outcome_after work release
  warnings_eq := by
    rw [journal_after, Journal.warnings_append, Journal.warnings_append, hrelease, warnings_closed,
      warnings_warned, Journal.Working.warnings_eq hwork, List.nil_append, List.nil_append]

/-- An operation that succeeds may tell of it after the release. -/
theorem Closing.tell {sides : List Side} {failure : Option Fault} {work run : Traced DeltaError α}
    (h : Closing sides failure work run) {remark : α → Remark}
    (hlevel : ∀ a, (remark a).level ≠ .warn) :
    Closing sides failure work (do
      let a ← run
      Traced.say (remark a)
      return a) := by
  cases hrun : run.result with
  | error e =>
    rw [Traced.bind_error hrun]
    exact ⟨h.calls_eq, h.not_close, hrun.symm.trans h.result_eq, h.warnings_eq⟩
  | ok a =>
    rw [Traced.bind_ok hrun]
    have hsaid : Journal.Working [.remark (remark a)] := Journal.working_singleton (hlevel a)
    refine ⟨?_, h.not_close, hrun.symm.trans h.result_eq, ?_⟩
    · rw [Journal.calls_append]
      exact (List.append_nil _).trans h.calls_eq
    · rw [Journal.warnings_append]
      exact (congrArg _ hsaid.warnings_eq).trans ((List.append_nil _).trans h.warnings_eq)

end Release
end CollectionDelta
