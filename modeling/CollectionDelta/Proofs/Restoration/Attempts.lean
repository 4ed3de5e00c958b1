import CollectionDelta.Proofs.Difference.Attempts
import CollectionDelta.Proofs.Restoration.Acceptance
import Mathlib.Data.List.Forall2

/-!
The order in which a restoration tries things, and what a failure leaves behind.

* `Trial`: an attempt of a restoration, with the resource that it hands on; `Trial.handedOn` is what
  has been handed on when the first one fails.
* `checks`, `tasks`, `trials`: what a restoration tries: the names of the records, derived's
  listing, the names of the listing, and the records of other names.
* `Run.Follows`: a run makes the calls of its trials, fails as the first one that fails, and leaves
  its place as what has been handed on makes it; `follows_rebuild` is put together from the steps.
* `Trial.Aims`: the names that are handed on are the first ones of a list; `aims_trials`.
* `restore_attempts`: calls, outcome and place of every restoration.
-/

namespace CollectionDelta.Restoration

/-- Something that a restoration tries: an attempt, with the resource that it hands on if it is a
call of the place. -/
structure Trial extends Attempt where
  resource? : Option (String × Bytes)
  deriving DecidableEq, Repr

variable {σ : Type}

namespace Trial

/-- An attempt in which nothing is handed on. -/
def plain (a : Attempt) : Trial := ⟨a, none⟩

def refusal (name : String) (mismatch : Mismatch) : Trial :=
  plain ⟨none, some (.inconsistent name mismatch)⟩

def handing (place : Place σ) (s : σ) (name : String) (bytes : Bytes) : Trial :=
  ⟨⟨none, (Release.failure? (place s name bytes).1).map (.sink name)⟩, some (name, bytes)⟩

/-- The check that no record before has the name of a record. -/
def occurrence (before : List Record) (r : Record) : Trial :=
  plain ⟨none,
    if r.name ∈ before.map Record.name then some (.inconsistent r.name .listedTwice) else none⟩

def attempts (tries : List Trial) : List Attempt := tries.map toAttempt

/-- What is handed on in trials up to the first that fails, with what that one hands on. -/
def handedOn : List Trial → List (String × Bytes)
  | [] => []
  | t :: rest => t.resource?.toList ++ if t.failure?.isSome then [] else handedOn rest

end Trial

open Trial

/-! ## The trials of a restoration -/

/-- The state to which handing on resources leads. -/
def placed (place : Place σ) (s : σ) (entries : List (String × Bytes)) : σ :=
  entries.foldl (fun t e => (place t e.1 e.2).2) s

/-- Things that are tried one after another, each in the state to which those before it lead. -/
def inTurn (place : Place σ) (s : σ) : List (σ → List Trial) → List Trial
  | [] => []
  | task :: rest => task s ++ inTurn place (placed place s (handedOn (task s))) rest

/-- For a name that derived lists, by the record of that name. -/
def listedTrials (derived : σ → Collection) (place : Place σ) (name : String) :
    Option Record → σ → List Trial
  | none, s => plain (.lookup (.read .derived name) .derived name ((derived s).read name)) ::
      match (derived s).read name with
      | .ok bytes => [handing place s name bytes]
      | .error _ => []
  | some (.added _), _ => []
  | some (.modified _ bytes), s => [handing place s name bytes]
  | some (.removed _ _), _ => [refusal name .removedButPresent]

/-- For a record of a name that derived does not list. -/
def unlistedTrials (place : Place σ) : Record → σ → List Trial
  | .removed name bytes, s => [handing place s name bytes]
  | .added name, _ => [refusal name .missing]
  | .modified name _, _ => [refusal name .missing]

/-- The names that derived lists, and then the records of other names. -/
def tasks (derived : σ → Collection) (place : Place σ) (records : List Record)
    (listing : List String) : List (σ → List Trial) :=
  listing.eraseDups.map (fun name => listedTrials derived place name (recordOf? records name)) ++
    (records.filter (·.name ∉ listing)).map (unlistedTrials place)

/-- That no record has the name of an earlier one. -/
def checks (records : List Record) : List Trial :=
  records.zipIdx.map fun x => occurrence (records.take x.2) x.1

/-- All that a restoration tries, if nothing fails. -/
def trials (derived : σ → Collection) (place : Place σ) (records : List Record) (s : σ) :
    List Trial :=
  checks records ++
    plain (.listing .derived (derived s).names) ::
      match (derived s).names with
      | .ok listing => inTurn place s (tasks derived place records listing)
      | .error _ => []

/-- The names that a restoration hands on, in order, if nothing fails. -/
def targets (records : List Record) : Except Fault (List String) → List String
  | .ok listing => listing.eraseDups.filter (.added · ∉ records) ++
      (records.filter fun r => r.name ∉ listing ∧ r.kind = .removed).map Record.name
  | .error _ => []

/-! ## Trials one after another -/

section

variable {place : Place σ} {tries more : List Trial} {e : DeltaError}

theorem attempts_append : attempts (tries ++ more) = attempts tries ++ attempts more :=
  List.map_append

theorem placed_append (s : σ) (xs ys : List (String × Bytes)) :
    placed place s (xs ++ ys) = placed place (placed place s xs) ys :=
  List.foldl_append

theorem handedOn_append_of_failure (h : Attempt.firstFailure (attempts tries) = some e) :
    handedOn (tries ++ more) = handedOn tries := by
  induction tries with
  | nil => cases h
  | cons t rest ih =>
    rw [List.cons_append, handedOn, handedOn]
    cases ht : t.failure? with
    | some e' => rfl
    | none =>
      have hrest : Attempt.firstFailure (attempts rest) = some e := by
        simpa [Attempt.firstFailure, attempts, ht] using h
      simp [ih hrest]

theorem handedOn_append (h : Attempt.firstFailure (attempts tries) = none) :
    handedOn (tries ++ more) = handedOn tries ++ handedOn more := by
  induction tries with
  | nil => rfl
  | cons t rest ih =>
    obtain ⟨ht, hrest⟩ := List.forall_mem_cons.1 (List.findSome?_eq_none_iff.1 h)
    rw [List.cons_append, handedOn, handedOn, ih (List.findSome?_eq_none_iff.2 hrest)]
    simp [ht]

end

/-! ## Runs that follow their trials -/

/-- The run follows its trials, and has handed on what they hand on, one after another. -/
structure Run.Follows {α : Type} (place : Place σ) (s : σ) (run : Run σ α) (tries : List Trial) :
    Prop where
  traced : run.traced.Follows (attempts tries)
  state_eq : run.state = placed place s (handedOn tries)

variable {derived : σ → Collection} {place : Place σ} {records : List Record}
  {tries more : List Trial}

/-- A run that is a single trial, which fails. -/
theorem follows_failed {α : Type} {s : σ} {run : Run σ α} {t : Trial} {e : DeltaError}
    (ht : t.failure? = some e) (hcalls : run.journal.calls = t.call?.toList)
    (hresult : run.result = .error e) (hstate : run.state = placed place s t.resource?.toList) :
    run.Follows place s [t] := by
  obtain ⟨⟨call?, failure?⟩, resource?⟩ := t
  obtain rfl : failure? = some e := ht
  refine ⟨⟨?_, fun e' he => ?_, fun hnone => by cases hnone⟩, ?_⟩
  · cases call? <;> exact hcalls
  · cases he
    exact hresult
  · rw [hstate, handedOn]
    exact congrArg _ (List.append_nil _).symm

/-- A call that is answered comes before what follows from the answer. -/
theorem Run.Follows.called {α : Type} {s : σ} {run : Run σ α} (h : run.Follows place s tries)
    (c : Call) :
    Run.Follows place s ⟨.call c :: run.journal, run.result, run.state⟩
      (plain ⟨some c, none⟩ :: tries) where
  traced := ⟨congrArg (c :: ·) h.traced.calls_eq, h.traced.of_failure, h.traced.of_success⟩
  state_eq := h.state_eq

theorem follows_hand {α : Type} (s : σ) (name : String) (bytes : Bytes) (a : α) :
    Run.Follows place s
      ⟨[], (hand place name bytes s).1.map fun _ => a, (hand place name bytes s).2⟩
      [handing place s name bytes] := by
  rw [hand, handing]
  rcases h : place s name bytes with ⟨r, t⟩
  have hstate : t = placed place s [(name, bytes)] := by simp [placed, h]
  cases r with
  | ok u => exact ⟨⟨rfl, fun e he => (by cases he), fun _ => ⟨a, rfl⟩⟩, hstate⟩
  | error f => exact follows_failed rfl rfl rfl hstate

theorem follows_refuse (c : Counts) (s : σ) (name : String) (mismatch : Mismatch) :
    (perform derived place c s (.refuse name mismatch)).Follows place s [refusal name mismatch] :=
  ⟨Traced.follows_fail _, rfl⟩

theorem follows_copy (c : Counts) (s : σ) (name : String) :
    (perform derived place c s (.copy name)).Follows place s
      (listedTrials derived place name none s) := by
  rw [perform, listedTrials]
  cases (derived s).read name with
  | error f => exact follows_failed rfl rfl rfl rfl
  | ok bytes => exact (follows_hand s name bytes _).called (.read .derived name)

theorem follows_present (c : Counts) (s : σ) (name : String) :
    (perform derived place c s (presentStep records name)).Follows place s
      (listedTrials derived place name (recordOf? records name) s) := by
  rw [presentStep]
  cases recordOf? records name with
  | none => exact follows_copy c s name
  | some r =>
    cases r with
    | added n => exact ⟨Traced.follows_pure _, rfl⟩
    | modified n bytes => exact follows_hand s name bytes _
    | removed n bytes => exact follows_refuse c s name .removedButPresent

theorem follows_absent (c : Counts) (s : σ) (r : Record) :
    (perform derived place c s (absentStep r)).Follows place s (unlistedTrials place r s) := by
  cases r with
  | removed name bytes => exact follows_hand s name bytes _
  | added name => exact follows_refuse c s name .missing
  | modified name bytes => exact follows_refuse c s name .missing

theorem performAll_cons_error {step : Step} {c : Counts} {s : σ} {e : DeltaError}
    (steps : List Step) (h : (perform derived place c s step).result = .error e) :
    performAll derived place c s (step :: steps) = perform derived place c s step := by
  rw [performAll]
  generalize perform derived place c s step = run at h
  obtain ⟨journal, result, state⟩ := run
  dsimp only at h
  subst h
  rfl

theorem traced_performAll_cons (step : Step) (steps : List Step) (c : Counts) (s : σ) :
    (performAll derived place c s (step :: steps)).traced =
      (perform derived place c s step).traced >>= fun c' =>
        (performAll derived place c' (perform derived place c s step).state steps).traced := by
  cases hresult : (perform derived place c s step).result with
  | error e =>
    rw [performAll_cons_error steps hresult, Traced.bind_error hresult, Run.traced, hresult]
  | ok c' =>
    rw [performAll_cons_ok steps hresult, Traced.bind_ok hresult]
    rfl

/-- A step that fails is the last one, and one that succeeds leaves the place to the steps after it
as its own trials do. -/
theorem follows_performAll {steps : List Step} {tasks : List (σ → List Trial)}
    (h : List.Forall₂ (fun step task => ∀ c s,
      (perform derived place c s step).Follows place s (task s)) steps tasks) (c : Counts) (s : σ) :
    (performAll derived place c s steps).Follows place s (inTurn place s tasks) := by
  induction h generalizing c s with
  | nil => exact ⟨Traced.follows_pure c, rfl⟩
  | @cons step task steps tasks hstep _ ih =>
    have hfirst := hstep c s
    rw [inTurn, ← hfirst.state_eq]
    refine ⟨?_, ?_⟩
    · rw [traced_performAll_cons, attempts_append]
      exact hfirst.traced.bind fun c' _ => (ih c' _).traced
    · cases hfailure : Attempt.firstFailure (attempts (task s)) with
      | some e =>
        have hresult := hfirst.traced.of_failure e hfailure
        rw [performAll_cons_error steps hresult, handedOn_append_of_failure hfailure]
        exact hfirst.state_eq
      | none =>
        obtain ⟨c', hresult⟩ := hfirst.traced.of_success hfailure
        rw [performAll_cons_ok steps hresult, handedOn_append hfailure, placed_append,
          ← hfirst.state_eq]
        exact (ih c' _).state_eq

/-- What the steps do is tried in their order. -/
theorem forall₂_steps (listing : List String) :
    List.Forall₂ (fun step task => ∀ c s,
      (perform derived place c s step).Follows place s (task s)) (steps records listing)
      (tasks derived place records listing) := by
  have hsame : (records.filter fun r => !listing.contains r.name) =
      records.filter (·.name ∉ listing) := by
    congr 1
    funext r
    simp
  rw [steps, hsame, tasks]
  refine List.rel_append ?_ ?_
  · rw [List.forall₂_map_left_iff, List.forall₂_map_right_iff, List.forall₂_same]
    exact fun name _ c s => follows_present c s name
  · rw [List.forall₂_map_left_iff, List.forall₂_map_right_iff, List.forall₂_same]
    exact fun r _ c s => follows_absent c s r

/-- Checks that hold leave no trace, and one that fails keeps from all that would follow. -/
theorem Run.Follows.guarded {α : Type} {s : σ} {run : Run σ α} {checks : List Trial}
    (hchecks : ∀ t ∈ checks, t.call? = none ∧ t.resource? = none)
    (hfail : ∀ e, Attempt.firstFailure (attempts checks) = some e → run = ⟨[], .error e, s⟩)
    (hrun : Attempt.firstFailure (attempts checks) = none → run.Follows place s more) :
    run.Follows place s (checks ++ more) := by
  induction checks with
  | nil => exact hrun rfl
  | cons t checks ih =>
    obtain ⟨⟨hcall, hresource⟩, hquiet⟩ := List.forall_mem_cons.1 hchecks
    obtain ⟨⟨call?, failure?⟩, resource?⟩ := t
    obtain rfl : call? = none := hcall
    obtain rfl : resource? = none := hresource
    cases failure? with
    | some e =>
      obtain rfl := hfail e rfl
      exact ⟨Traced.follows_fail e, rfl⟩
    | none =>
      have hrest := ih hquiet hfail hrun
      exact ⟨hrest.traced.checked, hrest.state_eq⟩

theorem firstFailure_occurrences (seen : List String) (before after : List Record)
    (hseen : ∀ name, name ∈ seen ↔ name ∈ before.map Record.name) :
    Attempt.firstFailure (attempts ((after.zipIdx before.length).map fun x =>
        occurrence ((before ++ after).take x.2) x.1)) =
      (repeatedName? seen after).map (.inconsistent · .listedTwice) := by
  induction after generalizing before seen with
  | nil => rfl
  | cons r after ih =>
    have hrest := ih (r.name :: seen) (before ++ [r]) fun name => by simp [hseen, or_comm]
    rw [List.length_append, List.length_singleton, List.append_assoc, List.singleton_append]
      at hrest
    rw [List.zipIdx_cons, List.map_cons, List.take_left, repeatedName?, attempts, List.map_cons,
      Attempt.firstFailure, List.findSome?_cons, occurrence, plain]
    by_cases hmem : r.name ∈ seen
    · simp [hmem, (hseen _).1 hmem]
    · rw [if_neg hmem, if_neg (mt (hseen _).2 hmem)]
      exact hrest

theorem firstFailure_checks (records : List Record) :
    Attempt.firstFailure (attempts (checks records)) =
      (repeatedName? [] records).map (.inconsistent · .listedTwice) :=
  firstFailure_occurrences [] [] records (by simp)

theorem quiet_checks (records : List Record) :
    ∀ t ∈ checks records, t.call? = none ∧ t.resource? = none := by
  intro t ht
  obtain ⟨x, -, rfl⟩ := List.mem_map.1 ht
  exact ⟨rfl, rfl⟩

theorem follows_rebuild (derived : σ → Collection) (place : Place σ) (records : List Record)
    (s : σ) :
    (rebuild derived place records s).Follows place s (trials derived place records s) := by
  refine Run.Follows.guarded (quiet_checks records) (fun e he => ?_) fun hnone => ?_
  · rw [firstFailure_checks] at he
    obtain ⟨name, hrepeated, rfl⟩ := Option.map_eq_some_iff.1 he
    rw [rebuild, hrepeated]
  · rw [firstFailure_checks] at hnone
    rw [rebuild, Option.map_eq_none_iff.1 hnone]
    cases (derived s).names with
    | error f => exact follows_failed rfl rfl rfl rfl
    | ok listing => exact (follows_performAll (forall₂_steps listing) {} s).called (.names .derived)

/-! ## The names that are handed on -/

/-- The names that are handed on are the first ones of a list, and all of it if nothing fails. -/
structure Trial.Aims (tries : List Trial) (names : List String) : Prop where
  begins : (handedOn tries).map Prod.fst <+: names
  all : Attempt.firstFailure (attempts tries) = none → (handedOn tries).map Prod.fst = names

namespace Trial

theorem aims_append_of_failure {names : List String} {e : DeltaError}
    (hfirst : Attempt.firstFailure (attempts tries) = some e)
    (h : (handedOn tries).map Prod.fst <+: names) : Aims (tries ++ more) names := by
  refine ⟨?_, fun hnone => ?_⟩
  · rwa [handedOn_append_of_failure hfirst]
  · rw [attempts_append, Attempt.firstFailure_append, hfirst, Option.some_or] at hnone
    cases hnone

theorem Aims.append {xs ys : List String} (h : Aims tries xs) (hmore : Aims more ys) :
    Aims (tries ++ more) (xs ++ ys) := by
  cases hfirst : Attempt.firstFailure (attempts tries) with
  | some e => exact aims_append_of_failure hfirst (h.begins.trans (List.prefix_append xs ys))
  | none =>
    have hnames : (handedOn (tries ++ more)).map Prod.fst =
        xs ++ (handedOn more).map Prod.fst := by
      rw [handedOn_append hfirst, List.map_append, h.all hfirst]
    refine ⟨hnames ▸ (List.prefix_append_right_inj xs).2 hmore.begins, fun hnone => ?_⟩
    rw [attempts_append, Attempt.firstFailure_append, hfirst, Option.none_or] at hnone
    rw [hnames, hmore.all hnone]

theorem aims_handing (s : σ) (name : String) (bytes : Bytes) :
    Aims [handing place s name bytes] [name] := by
  have h : (handedOn [handing place s name bytes]).map Prod.fst = [name] := by
    simp [handedOn, handing]
  exact ⟨h ▸ List.prefix_rfl, fun _ => h⟩

theorem aims_refusal (name : String) (mismatch : Mismatch) (names : List String) :
    Aims [refusal name mismatch] names :=
  ⟨List.nil_prefix, nofun⟩

/-- Where nothing is handed on, no name is. -/
theorem aims_nil_iff : Aims tries [] ↔ handedOn tries = [] := by
  refine ⟨fun h => by simpa using h.begins, fun h => ?_⟩
  constructor <;> simp [h]

theorem aims_quiet (h : ∀ t ∈ tries, t.call? = none ∧ t.resource? = none) : Aims tries [] := by
  refine aims_nil_iff.2 ?_
  induction tries with
  | nil => rfl
  | cons t rest ih =>
    obtain ⟨⟨-, ht⟩, hrest⟩ := List.forall_mem_cons.1 h
    rw [handedOn, ht, ih hrest, ite_self]
    rfl

end Trial

/-- Each of the things that are tried in turn hands on its name if it has the property `p`. -/
theorem aims_inTurn {ι : Type} {p : ι → Prop} [DecidablePred p] {rest : List (σ → List Trial)}
    {names : List String} (name : ι → String) (task : ι → σ → List Trial) (xs : List ι)
    (h : ∀ x s, Aims (task x s) (if p x then [name x] else []))
    (hrest : ∀ s, Aims (inTurn place s rest) names) (s : σ) :
    Aims (inTurn place s (xs.map task ++ rest)) ((xs.filter p).map name ++ names) := by
  induction xs generalizing s with
  | nil => exact hrest s
  | cons x xs ih =>
    have happend := (h x s).append (ih (placed place s (handedOn (task x s))))
    rw [List.filter_cons]
    by_cases hp : p x <;> simpa [hp, inTurn] using happend

theorem aims_listed (hnd : (records.map Record.name).Nodup) (name : String) (s : σ) :
    Aims (listedTrials derived place name (recordOf? records name) s)
      (if .added name ∉ records then [name] else []) := by
  cases hr : recordOf? records name with
  | none =>
    have hadded : .added name ∉ records := fun hmem =>
      recordOf?_eq_none.1 hr (List.mem_map_of_mem (f := Record.name) hmem)
    rw [if_pos hadded, listedTrials]
    cases (derived s).read name with
    | error f => exact ⟨List.nil_prefix, nofun⟩
    | ok bytes =>
      have hread : Aims [plain ⟨some (.read .derived name), none⟩] [] := aims_nil_iff.2 rfl
      exact hread.append (aims_handing s name bytes)
  | some r =>
    obtain ⟨hmem, rfl⟩ := mem_of_recordOf? hr
    cases r with
    | added n =>
      rw [if_neg (not_not_intro (by exact hmem))]
      exact aims_nil_iff.2 rfl
    | modified n bytes =>
      have hadded : .added n ∉ records := fun hadded => by
        cases eq_of_name_eq hnd hmem hadded rfl
      rw [if_pos (by exact hadded)]
      exact aims_handing s n bytes
    | removed n bytes => exact aims_refusal n _ _

theorem aims_unlisted (r : Record) (s : σ) :
    Aims (unlistedTrials place r s) (if r.kind = .removed then [r.name] else []) := by
  cases r with
  | removed name bytes => exact aims_handing s name bytes
  | added name => exact aims_refusal name .missing _
  | modified name bytes => exact aims_refusal name .missing _

theorem aims_tasks (hnd : (records.map Record.name).Nodup) (listing : List String) (s : σ) :
    Aims (inTurn place s (tasks derived place records listing))
      (targets records (.ok listing)) := by
  have hdone (s : σ) : Aims (inTurn place s []) [] := aims_nil_iff.2 rfl
  have hunlisted (s : σ) :
      Aims (inTurn place s ((records.filter (·.name ∉ listing)).map (unlistedTrials place)))
        ((records.filter fun r => r.name ∉ listing ∧ r.kind = .removed).map Record.name) := by
    have h := aims_inTurn Record.name (unlistedTrials place) (records.filter (·.name ∉ listing))
      aims_unlisted hdone s
    simpa [List.filter_filter, and_comm] using h
  have h := aims_inTurn id (fun name => listedTrials derived place name (recordOf? records name))
    listing.eraseDups (aims_listed hnd) hunlisted s
  rwa [List.map_id] at h

/-- Records with a repeated name are refused before anything is handed on. -/
theorem aims_trials_of_repeated {repeated : String} (h : repeatedName? [] records = some repeated)
    (names : List String) (s : σ) : Aims (trials derived place records s) names := by
  have hfirst := firstFailure_checks records
  rw [h] at hfirst
  have hquiet := aims_quiet (quiet_checks records)
  exact aims_append_of_failure hfirst (hquiet.begins.trans List.nil_prefix)

theorem aims_trials (derived : σ → Collection) (place : Place σ) (records : List Record) (s : σ) :
    Aims (trials derived place records s) (targets records (derived s).names) := by
  cases hrepeated : repeatedName? [] records with
  | some name => exact aims_trials_of_repeated hrepeated _ s
  | none =>
    have hnd := (repeatedName?_eq_none.1 hrepeated).1
    have hlisting : Aims [plain (.listing .derived (derived s).names)] [] :=
      aims_nil_iff.2 (by rw [handedOn, handedOn, ite_self]; rfl)
    refine (aims_quiet (quiet_checks records)).append ?_
    cases hnames : (derived s).names with
    | error f => exact ⟨List.nil_prefix, nofun⟩
    | ok listing => exact (hnames ▸ hlisting).append (aims_tasks hnd listing s)

theorem nodup_targets (hnd : (records.map Record.name).Nodup)
    (answer : Except Fault (List String)) : (targets records answer).Nodup := by
  cases answer with
  | error f => exact List.nodup_nil
  | ok listing =>
    rw [targets, List.nodup_append]
    refine ⟨(nodup_eraseDups listing).filter _, hnd.sublist (List.filter_sublist.map _), ?_⟩
    rintro name hname other hother rfl
    obtain ⟨r, hr, rfl⟩ := List.mem_map.1 hother
    have hlisted : r.name ∈ listing := List.mem_eraseDups.1 (List.mem_of_mem_filter hname)
    have hunlisted := (List.mem_filter.1 hr).2
    simp [hlisted] at hunlisted

theorem not_mem_targets (hnd : (records.map Record.name).Nodup) {name : String}
    (h : .added name ∈ records) (answer : Except Fault (List String)) :
    name ∉ targets records answer := by
  cases answer with
  | error f => exact List.not_mem_nil
  | ok listing =>
    rw [targets, List.mem_append]
    rintro (hname | hname)
    · exact of_decide_eq_true (List.mem_filter.1 hname).2 h
    · obtain ⟨r, hr, heq⟩ := List.mem_map.1 hname
      obtain ⟨hmem, hremoved⟩ := List.mem_filter.1 hr
      obtain rfl := eq_of_name_eq hnd hmem h heq
      simp [Record.kind] at hremoved

/-! ## All restorations -/

/-- A place that does as another one, and notes what it is called with. -/
def noting (place : Place σ) : Place (σ × List (String × Bytes)) := fun t name bytes =>
  ((place t.1 name bytes).1, (place t.1 name bytes).2, t.2 ++ [(name, bytes)])

theorem placed_noting (s : σ) (noted entries : List (String × Bytes)) :
    placed (noting place) (s, noted) entries = (placed place s entries, noted ++ entries) := by
  induction entries generalizing s noted with
  | nil => exact congrArg _ (List.append_nil noted).symm
  | cons e entries ih =>
    refine (ih (place s e.1 e.2).2 (noted ++ [e])).trans ?_
    rw [List.append_assoc]
    rfl

theorem inTurn_noting (tasks : List (σ → List Trial)) (s : σ) (noted : List (String × Bytes)) :
    inTurn (noting place) (s, noted) (tasks.map fun task t => task t.1) = inTurn place s tasks := by
  induction tasks generalizing s noted with
  | nil => rfl
  | cons task tasks ih => rw [List.map_cons, inTurn, inTurn, placed_noting, ih]

theorem tasks_noting (listing : List String) :
    tasks (fun t => derived t.1) (noting place) records listing =
      (tasks derived place records listing).map fun task t => task t.1 := by
  rw [tasks, tasks, List.map_append, List.map_map, List.map_map]
  congr 2
  · funext name t
    rw [Function.comp_apply]
    rcases recordOf? records name with - | - | - | - <;> rfl
  · funext r t
    cases r <;> rfl

theorem trials_noting (s : σ) (noted : List (String × Bytes)) :
    trials (fun t => derived t.1) (noting place) records (s, noted) =
      trials derived place records s := by
  rw [trials, trials]
  cases (derived s).names with
  | error f => rfl
  | ok listing =>
    dsimp only
    rw [tasks_noting, inTurn_noting]

/-- A call that a restoration makes before the closing: the listing, or a listed resource whose name
no record has. -/
inductive Asked (records : List Record) (answer : Except Fault (List String)) : Call → Prop
  | names : Asked records answer (.names .derived)
  | read {listing : List String} {name : String} (h : answer = .ok listing)
      (hname : name ∈ listing) (hrecord : name ∉ records.map Record.name) :
      Asked records answer (.read .derived name)

theorem exists_of_mem_inTurn {t : Trial} {tasks : List (σ → List Trial)} {s : σ}
    (h : t ∈ inTurn place s tasks) : ∃ task ∈ tasks, ∃ s', t ∈ task s' := by
  induction tasks generalizing s with
  | nil => cases h
  | cons task tasks ih =>
    rcases List.mem_append.1 h with h | h
    · exact ⟨task, List.mem_cons_self, s, h⟩
    · obtain ⟨task', htask, hmem⟩ := ih h
      exact ⟨task', List.mem_cons_of_mem _ htask, hmem⟩

theorem asked_of_mem_tasks {listing : List String} {answer : Except Fault (List String)}
    (hanswer : answer = .ok listing) {task : σ → List Trial}
    (htask : task ∈ tasks derived place records listing) {s : σ} {t : Trial} (ht : t ∈ task s)
    {c : Call} (hc : t.call? = some c) : Asked records answer c := by
  have hnone : ∀ {t'}, t'.call? = none → t ∈ [t'] → Asked records answer c := by
    intro t' hcall hmem
    rw [List.mem_singleton.1 hmem, hcall] at hc
    cases hc
  rcases List.mem_append.1 htask with htask | htask
  · obtain ⟨name, hname, rfl⟩ := List.mem_map.1 htask
    cases hr : recordOf? records name with
    | none =>
      rw [hr, listedTrials] at ht
      rcases List.mem_cons.1 ht with rfl | ht
      · rw [plain, Attempt.call?_lookup] at hc
        cases hc
        exact .read hanswer (List.mem_eraseDups.1 hname) (recordOf?_eq_none.1 hr)
      · split at ht
        · exact hnone rfl ht
        · cases ht
    | some r =>
      rw [hr] at ht
      cases r with
      | added n => cases ht
      | modified n bytes => exact hnone rfl ht
      | removed n bytes => exact hnone rfl ht
  · obtain ⟨r, -, rfl⟩ := List.mem_map.1 htask
    cases r with
    | removed n bytes => exact hnone rfl ht
    | added n => exact hnone rfl ht
    | modified n bytes => exact hnone rfl ht

theorem asked_of_mem_calls {s : σ} {c : Call}
    (h : c ∈ Attempt.calls (attempts (trials derived place records s))) :
    Asked records (derived s).names c := by
  obtain ⟨a, ha, hc⟩ := Attempt.exists_of_mem_calls h
  obtain ⟨t, ht, rfl⟩ := List.mem_map.1 ha
  rw [trials, List.mem_append, List.mem_cons] at ht
  rcases ht with ht | rfl | ht
  · rw [(quiet_checks records t ht).1] at hc
    cases hc
  · rw [plain, Attempt.call?_listing] at hc
    cases hc
    exact .names
  · split at ht
    · next listing hnames =>
      obtain ⟨task, htask, s', hmem⟩ := exists_of_mem_inTurn ht
      exact asked_of_mem_tasks hnames htask hmem hc
    · cases ht

/-- A restoration is the rebuilding and the closing of derived. -/
theorem closing_restore (derived : σ → Collection) (place : Place σ) (records : List Record)
    (s : σ) :
    let run := restore derived place records s
    Release.Closing [.derived] (Release.firstFailure [(derived run.state).close])
      (rebuild derived place records s).traced run.traced := by
  intro run
  have h := Release.closing_after (working_rebuild derived place records s)
    (show (Release.one .derived (derived (rebuild derived place records s).state)).journal =
      [Side.derived].map fun side => .call (.close side) from rfl)
  rw [Release.failure?_one] at h
  rw [state_restore, traced_restore]
  exact h.tell fun c => by nofun

/-- A restoration makes its trials in order up to the first that fails, of which it gives the
failure, and then closes derived; only if none fails it succeeds, unless derived cannot be closed.
The place has been called with what the trials hand on, in the order of a restoration that succeeds,
with no name twice and with no added one. Derived has been asked for its names, and for listed
resources whose names no record has. -/
theorem restore_attempts (derived : σ → Collection) (place : Place σ) (records : List Record)
    (s : σ) :
    let run := restore derived place records s
    let noted := restore (fun t => derived t.1) (noting place) records (s, [])
    let tries := trials derived place records s
    run.journal.calls = Attempt.calls (attempts tries) ++ [.close .derived] ∧
      (∀ e, Attempt.firstFailure (attempts tries) = some e → run.result = .error e) ∧
      (Attempt.firstFailure (attempts tries) = none → ∃ c, run.result =
        Release.outcome (.ok c) (Release.firstFailure [(derived run.state).close])) ∧
      run.state = placed place s (handedOn tries) ∧
      noted.state = (run.state, handedOn tries) ∧
      Aims tries (targets records (derived s).names) ∧
      ((handedOn tries).map Prod.fst).Nodup ∧
      (∀ name, .added name ∈ records → name ∉ (handedOn tries).map Prod.fst) ∧
      ∀ c ∈ Attempt.calls (attempts tries), Asked records (derived s).names c := by
  intro run noted tries
  have hfollows := follows_rebuild derived place records s
  have hclosing : Release.Closing [.derived] (Release.firstFailure [(derived run.state).close])
      (rebuild derived place records s).traced run.traced := closing_restore derived place records s
  have hresult : run.result = Release.outcome (rebuild derived place records s).result
    (Release.firstFailure [(derived run.state).close]) := hclosing.result_eq
  have hstate : run.state = placed place s (handedOn tries) :=
    (state_restore records s).trans hfollows.state_eq
  have haims := aims_trials derived place records s
  have hnames : (records.map Record.name).Nodup ∨ handedOn tries = [] := by
    cases hrepeated : repeatedName? [] records with
    | some name => exact .inr (aims_nil_iff.1 (aims_trials_of_repeated hrepeated [] s))
    | none => exact .inl (repeatedName?_eq_none.1 hrepeated).1
  refine ⟨?_, fun e he => ?_, fun hnone => ?_, hstate, ?_, haims, ?_, fun name hadded => ?_,
    fun c => asked_of_mem_calls⟩
  · rw [← hfollows.traced.calls_eq]
    exact hclosing.calls_eq
  · have hfailed : (rebuild derived place records s).result = .error e :=
      hfollows.traced.of_failure e he
    rw [hresult, hfailed]
    rfl
  · obtain ⟨c, hc⟩ := hfollows.traced.of_success hnone
    exact ⟨c, by rw [hresult, ← hc]; rfl⟩
  · have hnoted := (follows_rebuild (fun t => derived t.1) (noting place) records (s, [])).state_eq
    rw [trials_noting, placed_noting, List.nil_append, ← hstate] at hnoted
    exact (state_restore records (s, [])).trans hnoted
  · rcases hnames with hnd | hnil
    · exact (nodup_targets hnd _).sublist haims.begins.sublist
    · rw [hnil]
      exact List.nodup_nil
  · rcases hnames with hnd | hnil
    · exact fun hmem => not_mem_targets hnd hadded _ (haims.begins.subset hmem)
    · rw [hnil]
      exact List.not_mem_nil

/-- The place refuses the second resource, and the record without a resource goes unnoticed. -/
example :
    let derived := (Memory.ofList [("keep", [1]), ("edit", [2]), ("more", [3])]).toCollection
    let records := [.modified "edit" [7], .added "lost"]
    let place : Place Unit := fun _ name _ =>
      (if name = "edit" then .error Fault.full else .ok (), ())
    let tries := trials (fun _ => derived) place records ()
    handedOn tries = [("keep", [1]), ("edit", [7])] ∧
      Attempt.firstFailure (attempts tries) = some (.sink "edit" Fault.full) := by
  decide +kernel

end CollectionDelta.Restoration
