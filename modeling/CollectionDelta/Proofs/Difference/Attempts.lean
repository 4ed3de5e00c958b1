import CollectionDelta.Proofs.Difference.Pass
import CollectionDelta.Proofs.Release.Once
import Mathlib.Data.List.Basic

/-!
The order in which two collections are asked, and what a failure ends.

* `Attempt`, `Attempt.made`: something tried, with the call that it is and the failure that it
  meets; attempts are made in order, up to the first that fails.
* `Difference.attempts`: what a difference tries, name by name of base's listing.
* `Traced.Follows`: a run makes the calls of a list of attempts, and fails as the first one that
  fails; `Difference.follows_reconcile` is put together from the steps.
* `AnsweredAlike`, `Traced.Fixed`: a run that nothing can change but the answers to its own calls.
* `Difference.generate_attempts`: calls and outcome of every difference.
-/

namespace CollectionDelta

/-- Something that a run tries: a call, unless it is a check, and how it fails, if it does. -/
structure Attempt where
  call? : Option Call
  failure? : Option DeltaError
  deriving DecidableEq, Repr

namespace Attempt

/-- The attempts up to the first that fails. -/
def made : List Attempt → List Attempt
  | [] => []
  | a :: rest => if a.failure?.isSome then [a] else a :: made rest

/-- The calls that come of attempts, in order. -/
def calls (tries : List Attempt) : List Call := (made tries).filterMap call?

def firstFailure (tries : List Attempt) : Option DeltaError := tries.findSome? failure?

/-! ## The attempts of a difference -/

def listing (side : Side) : Except Fault (List String) → Attempt
  | .ok _ => ⟨some (.names side), none⟩
  | .error f => ⟨some (.names side), some (.listing side f)⟩

/-- A look-up of a resource; one that fails with another kind than "not found" is a failed read. -/
def lookup {α : Type} (call : Call) (side : Side) (name : String) : Except Fault α → Attempt
  | .ok _ => ⟨some call, none⟩
  | .error f =>
    ⟨some call, some (if f.kind = .notFound then .notFound side name f else .io side name f)⟩

def read (base : Collection) (name : String) : Attempt :=
  lookup (.read .base name) .base name (base.read name)

def stream (side : Side) (c : Collection) (name : String) : Attempt :=
  lookup (.stream side name) side name (c.stream name)

/-- The check that a base name has not come before. -/
def occurrence (policy : DuplicatePolicy) (before : List String) (name : String) : Attempt :=
  ⟨none, if policy = .reject ∧ name ∈ before then some (.duplicateName name) else none⟩

/-- What the comparator says about two streams, if there are two. -/
def verdict? (comparator : Comparator) : Except Fault Stream → Except Fault Stream →
    Option (Except Fault Bool)
  | .ok a, .ok b => some (comparator.equal a b).equal
  | _, _ => none

def comparison (name : String) : Option (Except Fault Bool) → Attempt
  | some (.error f) => ⟨none, some (.compare name f)⟩
  | _ => ⟨none, none⟩

end Attempt

namespace Difference

open Attempt

/-- Both streams of a name that both collections list, and base's bytes if the streams differ. -/
def sharedAttempts (comparator : Comparator) (base derived : Collection) (name : String) :
    List Attempt :=
  let verdict := verdict? comparator (base.stream name) (derived.stream name)
  [stream .base base name, stream .derived derived name, comparison name verdict] ++
    match verdict with
    | some (.ok false) => [read base name]
    | _ => []

/-- What is tried for a base name that comes after the base names `before`. -/
def nameAttempts (o : DiffOptions) (base derived : Collection) (listed before : List String)
    (name : String) : List Attempt :=
  occurrence o.duplicates before name ::
    if name ∈ listed ∧ name ∉ before then sharedAttempts (.ofChunk o.chunk) base derived name
    else [read base name]

/-- All that a difference tries, if nothing fails: the listings, and then the names of base's
listing in order. -/
def attempts (o : DiffOptions) (base derived : Collection) : List Attempt :=
  [.listing .derived derived.names, .listing .base base.names] ++
    match derived.names, base.names with
    | .ok listed, .ok names => names.zipIdx.flatMap fun x =>
        nameAttempts o base derived listed (names.take x.2) x.1
    | _, _ => []

end Difference

/-! ## Attempts one after another -/

namespace Attempt

variable {tries more : List Attempt} {e : DeltaError}

theorem call?_listing (side : Side) (answer : Except Fault (List String)) :
    (listing side answer).call? = some (.names side) := by cases answer <;> rfl

theorem call?_lookup {α : Type} (call : Call) (side : Side) (name : String)
    (answer : Except Fault α) : (lookup call side name answer).call? = some call := by
  cases answer <;> rfl

theorem call?_comparison (name : String) (verdict : Option (Except Fault Bool)) :
    (comparison name verdict).call? = none := by
  unfold comparison
  split <;> rfl

theorem made_append_of_failure (h : firstFailure tries = some e) :
    made (tries ++ more) = made tries := by
  induction tries with
  | nil => cases h
  | cons a rest ih =>
    cases ha : a.failure? with
    | some e' => simp [made, ha]
    | none =>
      have hrest : firstFailure rest = some e := by simpa [firstFailure, ha] using h
      simp [made, ha, ih hrest]

theorem made_append (h : firstFailure tries = none) :
    made (tries ++ more) = tries ++ made more := by
  induction tries with
  | nil => rfl
  | cons a rest ih =>
    obtain ⟨ha, hrest⟩ := List.forall_mem_cons.1 (List.findSome?_eq_none_iff.1 h)
    simp [made, ha, ih (List.findSome?_eq_none_iff.2 hrest)]

theorem made_eq_self (h : firstFailure tries = none) : made tries = tries := by
  have happend : made (tries ++ []) = tries ++ made [] := made_append h
  rwa [made, List.append_nil] at happend

theorem firstFailure_append :
    firstFailure (tries ++ more) = (firstFailure tries).or (firstFailure more) :=
  List.findSome?_append

theorem made_sublist (tries : List Attempt) : (made tries).Sublist tries := by
  induction tries with
  | nil => exact .slnil
  | cons a rest ih =>
    rw [made]
    split
    · exact (List.nil_sublist rest).cons_cons a
    · exact ih.cons_cons a

theorem exists_of_mem_calls {c : Call} (h : c ∈ calls tries) : ∃ a ∈ tries, a.call? = some c := by
  obtain ⟨a, ha, hcall⟩ := List.mem_filterMap.1 h
  exact ⟨a, (made_sublist tries).subset ha, hcall⟩

end Attempt

/-! ## Runs that follow their attempts -/

namespace Traced

open Attempt

variable {α β : Type} {m : Traced DeltaError α} {k : α → Traced DeltaError β}
  {tries more : List Attempt}

/-- The calls of the run are those of the attempts that are made, and it fails if and as one of them
fails. -/
structure Follows (m : Traced DeltaError α) (tries : List Attempt) : Prop where
  calls_eq : m.journal.calls = calls tries
  of_failure : ∀ e, firstFailure tries = some e → m.result = .error e
  of_success : firstFailure tries = none → ∃ a, m.result = .ok a

theorem follows_pure (a : α) : (pure a : Traced DeltaError α).Follows [] :=
  ⟨rfl, nofun, fun _ => ⟨a, rfl⟩⟩

theorem follows_say (r : Remark) : (say r : Traced DeltaError Unit).Follows [] :=
  ⟨rfl, nofun, fun _ => ⟨(), rfl⟩⟩

/-- A check that fails keeps from all that would follow. -/
theorem follows_fail (e : DeltaError) :
    (fail e : Traced DeltaError α).Follows (⟨none, some e⟩ :: more) :=
  ⟨rfl, fun _ he => congrArg Except.error (Option.some.inj he), nofun⟩

/-- A check that succeeds leaves no trace. -/
theorem Follows.checked (h : m.Follows tries) : m.Follows (⟨none, none⟩ :: tries) :=
  ⟨h.calls_eq, h.of_failure, h.of_success⟩

theorem Follows.bind (hm : m.Follows tries) (hk : ∀ a, m.result = .ok a → (k a).Follows more) :
    (m >>= k).Follows (tries ++ more) := by
  cases hfirst : firstFailure tries with
  | some e =>
    have hresult := hm.of_failure e hfirst
    have happend : firstFailure (tries ++ more) = some e := by
      rw [firstFailure_append, hfirst, Option.some_or]
    rw [bind_error hresult]
    refine ⟨?_, fun e' he' => ?_, fun hnone => ?_⟩
    · rw [hm.calls_eq, calls, calls, made_append_of_failure hfirst]
    · rw [Option.some.inj (happend.symm.trans he')]
    · cases happend.symm.trans hnone
  | none =>
    obtain ⟨a, hresult⟩ := hm.of_success hfirst
    have hka := hk a hresult
    have happend : firstFailure (tries ++ more) = firstFailure more := by
      rw [firstFailure_append, hfirst, Option.none_or]
    rw [bind_ok hresult]
    refine ⟨?_, fun e he => hka.of_failure e (happend ▸ he), fun h => hka.of_success (happend ▸ h)⟩
    rw [Journal.calls_append, hm.calls_eq, hka.calls_eq, calls, calls, calls, made_append hfirst,
      made_eq_self hfirst, List.filterMap_append]

/-- What is left of a run that asks nothing more and cannot fail. -/
theorem Follows.bind_quiet (hm : m.Follows tries) (hk : ∀ a, (k a).Follows []) :
    (m >>= k).Follows tries := by
  have h := hm.bind fun a _ => hk a
  rwa [List.append_nil] at h

end Traced

namespace Difference

open Attempt

variable {o : DiffOptions} {base derived : Collection} {comparator : Comparator}

theorem follows_listing (side : Side) (c : Collection) :
    (listing side c).Follows [.listing side c.names] := by
  rw [listing]
  cases c.names with
  | ok names => exact ⟨rfl, nofun, fun _ => ⟨names, rfl⟩⟩
  | error f => exact ⟨rfl, fun e he => congrArg Except.error (Option.some.inj he), nofun⟩

theorem follows_lookup {α : Type} (call : Call) (side : Side) (name : String)
    (answer : Except Fault α) :
    ((Traced.call call answer).mapError (.lookup side name)).Follows
      [.lookup call side name answer] := by
  cases answer with
  | ok a => exact ⟨rfl, nofun, fun _ => ⟨a, rfl⟩⟩
  | error f => exact ⟨rfl, fun e he => congrArg Except.error (Option.some.inj he), nofun⟩

theorem follows_comparison (name : String) {a b : Stream} {s s' : Except Fault Stream}
    (hs : s = .ok a) (hs' : s' = .ok b) :
    (Traced.ofExcept ((comparator.equal a b).equal.mapError (.compare name))).Follows
      [comparison name (verdict? comparator s s')] := by
  rw [hs, hs', verdict?]
  cases (comparator.equal a b).equal with
  | ok same => exact ⟨rfl, nofun, fun _ => ⟨same, rfl⟩⟩
  | error f => exact ⟨rfl, fun e he => congrArg Except.error (Option.some.inj he), nofun⟩

theorem eq_ok_of_mapError {ε ε' α : Type} {r : Except ε α} {f : ε → ε'} {a : α}
    (h : r.mapError f = .ok a) : r = .ok a := by
  cases r with
  | ok a' => exact congrArg Except.ok (Except.ok.inj h)
  | error e => cases h

theorem follows_sameContent (name : String) :
    (sameContent comparator base derived name).Follows
      [stream .base base name, stream .derived derived name,
        comparison name (verdict? comparator (base.stream name) (derived.stream name))] := by
  refine (follows_lookup (.stream .base name) .base name (base.stream name)).bind fun a ha => ?_
  refine (follows_lookup (.stream .derived name) .derived name
    (derived.stream name)).bind fun b hb => ?_
  exact follows_comparison name (eq_ok_of_mapError ha) (eq_ok_of_mapError hb)

theorem follows_readBase (name : String) : (readBase base name).Follows [read base name] :=
  follows_lookup _ _ _ _

/-- The streams are compared to their end, or to a failure, before the answer is known. -/
theorem verdict_of_sameContent {name : String} {same : Bool}
    (h : (sameContent comparator base derived name).result = .ok same) :
    verdict? comparator (base.stream name) (derived.stream name) = some (.ok same) := by
  cases hs : base.stream name with
  | error f => simp [sameContent, openStream, hs, Except.bind, Except.mapError] at h
  | ok a =>
    cases hs' : derived.stream name with
    | error f => simp [sameContent, openStream, hs, hs', Except.bind, Except.mapError] at h
    | ok b =>
      cases he : (comparator.equal a b).equal with
      | error f => simp [sameContent, openStream, hs, hs', he, Except.bind, Except.mapError] at h
      | ok same' =>
        simp [sameContent, openStream, hs, hs', he, Except.bind, Except.mapError] at h
        rw [verdict?, he, h]

theorem follows_shared (name : String) :
    (perform comparator base derived (.shared name)).Follows
      (sharedAttempts comparator base derived name) := by
  refine (follows_sameContent name).bind fun same hsame => ?_
  rw [verdict_of_sameContent hsame]
  cases same with
  | true => exact Traced.follows_pure _
  | false =>
    refine (follows_readBase name).bind_quiet fun bytes => ?_
    exact (Traced.follows_say _).bind_quiet fun _ => Traced.follows_pure _

theorem follows_removed (name : String) :
    (perform comparator base derived (.removed name)).Follows [read base name] := by
  refine (follows_readBase name).bind_quiet fun bytes => ?_
  exact (Traced.follows_say _).bind_quiet fun _ => Traced.follows_pure _

theorem follows_perform (o : DiffOptions) (base derived : Collection) (listed before : List String)
    (name : String) :
    (perform (.ofChunk o.chunk) base derived (stepAt o.duplicates listed before name)).Follows
      (nameAttempts o base derived listed before name) := by
  rw [stepAt, nameAttempts, occurrence]
  split
  · exact Traced.follows_fail _
  · split
    · exact (follows_shared name).checked
    · exact (follows_removed name).checked

theorem follows_performAll {ι : Type} {step : ι → Step} {tries : ι → List Attempt} (xs : List ι)
    (h : ∀ x, (perform comparator base derived (step x)).Follows (tries x)) :
    (performAll comparator base derived (xs.map step)).Follows (xs.flatMap tries) := by
  induction xs with
  | nil => exact Traced.follows_pure _
  | cons x xs ih =>
    refine (h x).bind fun records _ => ?_
    exact ih.bind_quiet fun more => Traced.follows_pure _

theorem follows_tellAdded (names : List String) : (tellAdded names).Follows [] := by
  induction names with
  | nil => exact Traced.follows_pure _
  | cons name names ih =>
    refine (Traced.follows_say _).bind_quiet fun _ => ?_
    exact ih.bind_quiet fun more => Traced.follows_pure _

theorem follows_reconcile (o : DiffOptions) (base derived : Collection) :
    (reconcile o base derived).Follows (attempts o base derived) := by
  have hrest (listed : List String) (hlisted : derived.names = .ok listed) (distinct : Nat) :
      Traced.Follows (do
        let names ← listing .base base
        Traced.say (.reconciling names.length distinct)
        let kept ← performAll (.ofChunk o.chunk) base derived (steps o.duplicates listed names)
        let added ← tellAdded (addedNames listed names)
        return kept ++ added)
      (.listing .base base.names :: match derived.names, base.names with
        | .ok listed, .ok names => names.zipIdx.flatMap fun x =>
            nameAttempts o base derived listed (names.take x.2) x.1
        | _, _ => []) := by
    refine (follows_listing .base base).bind fun names h => ?_
    have hnames : base.names = .ok names := eq_ok_of_mapError h
    rw [hlisted, hnames, steps_eq]
    refine (Traced.follows_say _).bind fun _ _ => ?_
    refine Traced.Follows.bind_quiet (follows_performAll names.zipIdx fun x =>
      follows_perform o base derived listed (names.take x.2) x.1) fun kept => ?_
    exact (follows_tellAdded _).bind_quiet fun added => Traced.follows_pure _
  refine (follows_listing .derived derived).bind fun listed h => ?_
  have hlisted : derived.names = .ok listed := eq_ok_of_mapError h
  dsimp only
  split
  · exact (Traced.follows_say _).bind fun _ _ => hrest listed hlisted _
  · exact hrest listed hlisted _

end Difference

/-! ## Runs and the answers that they depend on -/

def Side.pick (base derived : Collection) : Side → Collection
  | .base => base
  | .derived => derived

/-- Two pairs of collections give the same answer to a call. -/
def AnsweredAlike (base derived base' derived' : Collection) : Call → Prop
  | .names side => (side.pick base derived).names = (side.pick base' derived').names
  | .read side name => (side.pick base derived).read name = (side.pick base' derived').read name
  | .stream side name =>
    (side.pick base derived).stream name = (side.pick base' derived').stream name
  | .close side => (side.pick base derived).close = (side.pick base' derived').close

namespace Traced

variable {ε ε' α β : Type} {P : Call → Prop} {m m' : Traced ε α} {k k' : α → Traced ε β}

/-- If every call of the run `m` has the property `P`, then `m'` is the same run. -/
def Fixed (P : Call → Prop) (m m' : Traced ε α) : Prop := (∀ c ∈ m.journal.calls, P c) → m = m'

theorem fixed_refl (m : Traced ε α) : Fixed P m m := fun _ => rfl

theorem fixed_call {c : Call} {answer answer' : Except ε α} (h : P c → answer = answer') :
    Fixed P (call c answer) (call c answer') :=
  fun hcalls => congrArg (call c) (h (hcalls c List.mem_cons_self))

theorem Fixed.mapError (h : Fixed P m m') (f : ε → ε') : Fixed P (m.mapError f) (m'.mapError f) :=
  fun hcalls => congrArg (Traced.mapError f) (h hcalls)

theorem Fixed.bind (hm : Fixed P m m') (hk : ∀ a, Fixed P (k a) (k' a)) :
    Fixed P (m >>= k) (m' >>= k') := by
  intro hcalls
  cases hresult : m.result with
  | error e =>
    rw [bind_error hresult] at hcalls
    obtain rfl := hm hcalls
    rw [bind_error hresult, bind_error hresult]
  | ok a =>
    rw [bind_ok hresult] at hcalls
    simp only [Journal.calls_append, List.forall_mem_append] at hcalls
    obtain ⟨hfirst, hrest⟩ := hcalls
    obtain rfl := hm hfirst
    rw [bind_ok hresult, bind_ok hresult, hk a hrest]

end Traced

namespace Difference

variable {base derived base' derived' : Collection} {comparator : Comparator}

theorem fixed_listing (side : Side) :
    Traced.Fixed (AnsweredAlike base derived base' derived')
      (listing side (side.pick base derived)) (listing side (side.pick base' derived')) :=
  (Traced.fixed_call id).mapError _

theorem fixed_openStream (side : Side) (name : String) :
    Traced.Fixed (AnsweredAlike base derived base' derived')
      (openStream side (side.pick base derived) name)
      (openStream side (side.pick base' derived') name) :=
  (Traced.fixed_call id).mapError _

theorem fixed_readBase (name : String) :
    Traced.Fixed (AnsweredAlike base derived base' derived') (readBase base name)
      (readBase base' name) :=
  (Traced.fixed_call id).mapError _

theorem fixed_sameContent (name : String) :
    Traced.Fixed (AnsweredAlike base derived base' derived')
      (sameContent comparator base derived name) (sameContent comparator base' derived' name) :=
  (fixed_openStream .base name).bind fun _ => (fixed_openStream .derived name).bind fun _ =>
    Traced.fixed_refl _

theorem fixed_perform (step : Step) :
    Traced.Fixed (AnsweredAlike base derived base' derived')
      (perform comparator base derived step) (perform comparator base' derived' step) := by
  cases step with
  | refuse name => exact Traced.fixed_refl _
  | removed name => exact (fixed_readBase name).bind fun _ => Traced.fixed_refl _
  | shared name =>
    refine (fixed_sameContent name).bind fun same => ?_
    cases same with
    | true => exact Traced.fixed_refl _
    | false => exact (fixed_readBase name).bind fun _ => Traced.fixed_refl _

theorem fixed_performAll (steps : List Step) :
    Traced.Fixed (AnsweredAlike base derived base' derived')
      (performAll comparator base derived steps) (performAll comparator base' derived' steps) := by
  induction steps with
  | nil => exact Traced.fixed_refl _
  | cons step steps ih =>
    exact (fixed_perform step).bind fun _ => ih.bind fun _ => Traced.fixed_refl _

theorem fixed_reconcile (o : DiffOptions) :
    Traced.Fixed (AnsweredAlike base derived base' derived') (reconcile o base derived)
      (reconcile o base' derived') := by
  refine (fixed_listing .derived).bind fun listed => ?_
  dsimp only
  split
  · refine (Traced.fixed_refl _).bind fun _ => ?_
    refine (fixed_listing .base).bind fun names => (Traced.fixed_refl _).bind fun _ => ?_
    exact (fixed_performAll _).bind fun _ => Traced.fixed_refl _
  · refine (fixed_listing .base).bind fun names => (Traced.fixed_refl _).bind fun _ => ?_
    exact (fixed_performAll _).bind fun _ => Traced.fixed_refl _

theorem fixed_both :
    Traced.Fixed (AnsweredAlike base derived base' derived') (Release.both base derived)
      (Release.both base' derived') := by
  intro hcalls
  have hmem : ∀ side, .close side ∈ (Release.both base derived).journal.calls := by
    intro side
    cases side <;> simp [Release.both, Release.one, Traced.call, Journal.calls]
  have hbase : base.close = base'.close := hcalls _ (hmem .base)
  have hderived : derived.close = derived'.close := hcalls _ (hmem .derived)
  simp only [Release.both, Release.one, hbase, hderived]

theorem fixed_generate (o : DiffOptions) :
    Traced.Fixed (AnsweredAlike base derived base' derived') (generate o base derived)
      (generate o base' derived') := by
  refine Traced.Fixed.bind (fun hcalls => ?_) fun _ => Traced.fixed_refl _
  rw [Release.journal_after, Journal.calls_append, Journal.calls_append] at hcalls
  simp only [List.forall_mem_append] at hcalls
  obtain ⟨hwork, hrelease, -⟩ := hcalls
  rw [fixed_reconcile o hwork, fixed_both hrelease]

/-! ## All differences -/

/-- A call that a difference makes before the closing: a listing, or a look-up of a name that base
lists, which of derived asks for a stream only. -/
inductive Asked (base : Collection) : Call → Prop
  | names (side : Side) : Asked base (.names side)
  | read {names : List String} {name : String} (h : base.names = .ok names) (hname : name ∈ names) :
      Asked base (.read .base name)
  | stream {names : List String} {name : String} (h : base.names = .ok names) (hname : name ∈ names)
      (side : Side) : Asked base (.stream side name)

theorem asked_of_mem_nameAttempts {o : DiffOptions} {names listed before : List String}
    {name : String} (h : base.names = .ok names) (hname : name ∈ names) {a : Attempt} {c : Call}
    (ha : a ∈ nameAttempts o base derived listed before name) (hc : a.call? = some c) :
    Asked base c := by
  have hread : ∀ {c}, (Attempt.read base name).call? = some c → Asked base c := by
    intro c hc
    rw [Attempt.read, Attempt.call?_lookup] at hc
    cases hc
    exact .read h hname
  have hstream : ∀ {side c d}, (Attempt.stream side d name).call? = some c → Asked base c := by
    intro side c d hc
    rw [Attempt.stream, Attempt.call?_lookup] at hc
    cases hc
    exact .stream h hname side
  rw [nameAttempts, List.mem_cons] at ha
  rcases ha with rfl | ha
  · cases hc
  · split at ha
    · rw [sharedAttempts, List.mem_append, List.mem_cons, List.mem_cons, List.mem_singleton] at ha
      rcases ha with (rfl | rfl | rfl) | ha
      · exact hstream hc
      · exact hstream hc
      · rw [Attempt.call?_comparison] at hc
        cases hc
      · split at ha
        · rw [List.mem_singleton] at ha
          exact hread (ha ▸ hc)
        · cases ha
    · rw [List.mem_singleton] at ha
      exact hread (ha ▸ hc)

theorem asked_of_mem_attempts {o : DiffOptions} {a : Attempt} {c : Call}
    (ha : a ∈ attempts o base derived) (hc : a.call? = some c) : Asked base c := by
  rw [attempts, List.mem_append, List.mem_cons, List.mem_singleton] at ha
  rcases ha with (rfl | rfl) | ha
  · rw [Attempt.call?_listing] at hc
    cases hc
    exact .names .derived
  · rw [Attempt.call?_listing] at hc
    cases hc
    exact .names .base
  · split at ha
    · next listed names hlisted hnames =>
      obtain ⟨x, hx, ha⟩ := List.mem_flatMap.1 ha
      exact asked_of_mem_nameAttempts hnames (List.fst_mem_of_mem_zipIdx hx) ha hc
    · cases ha

/-- A difference makes its attempts in order up to the first that fails, of which it gives the
failure, and then closes both collections; only if none fails it gives records, unless a collection
cannot be closed. It asks for no resource that base does not list, and reads nothing of derived
whole. Nothing but the answers to the calls that it makes has a part in this. -/
theorem generate_attempts (o : DiffOptions) (base derived : Collection) :
    let run := generate o base derived
    let tries := attempts o base derived
    run.journal.calls = Attempt.calls tries ++ [.close .base, .close .derived] ∧
      (∀ e, Attempt.firstFailure tries = some e → run.result = .error e) ∧
      (Attempt.firstFailure tries = none → ∃ records, run.result =
        Release.outcome (.ok records) (Release.firstFailure [base.close, derived.close])) ∧
      (∀ c ∈ Attempt.calls tries, Asked base c) ∧
      ∀ base' derived', (∀ c ∈ run.journal.calls, AnsweredAlike base derived base' derived' c) →
        generate o base' derived' = run := by
  intro run tries
  have hfollows := follows_reconcile o base derived
  have hreleased := Release.closing_after (working_reconcile o base derived)
    (show (Release.both base derived).journal =
      [Side.base, .derived].map fun side => .call (.close side) from rfl)
  rw [Release.failure?_both] at hreleased
  have hclosing : Release.Closing [.base, .derived]
      (Release.firstFailure [base.close, derived.close]) (reconcile o base derived) run :=
    hreleased.tell fun records => by nofun
  have hresult : run.result = Release.outcome (reconcile o base derived).result
    (Release.firstFailure [base.close, derived.close]) := hclosing.result_eq
  refine ⟨?_, fun e he => ?_, fun hnone => ?_, fun c hc => ?_, fun base' derived' hcalls => ?_⟩
  · rw [← hfollows.calls_eq]
    exact hclosing.calls_eq
  · rw [hresult, hfollows.of_failure e he]
    rfl
  · obtain ⟨records, hrecords⟩ := hfollows.of_success hnone
    exact ⟨records, by rw [hresult, hrecords]⟩
  · obtain ⟨a, ha, hcall⟩ := Attempt.exists_of_mem_calls hc
    exact asked_of_mem_attempts ha hcall
  · exact (fixed_generate o hcalls).symm

end Difference
end CollectionDelta
