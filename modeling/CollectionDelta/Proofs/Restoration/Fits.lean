import CollectionDelta.Proofs.Collection
import CollectionDelta.Proofs.Names
import CollectionDelta.Proofs.Release
import CollectionDelta.Restoration

/-!
Records that fit a derived collection are restored.

* `Fits`: no name comes twice, and only the removed names are missing from the listing.
* `Takes`: a place that refuses nothing, and what becomes of it.
* `handed`, `counted`: what a step hands on, and how it counts, where no call fails.
* `performAll_carried`, `performAll_performable`: a run of steps into a place that is ready for what
  is handed on, and into one that is so in each state.
* `traced_restore`: a restoration is the rebuilding and then the release; `result_restore` is the
  case where derived can be closed.
* `restore_carried`, `restore_fits`: a restoration of records that fit hands on what its steps do.
-/

namespace CollectionDelta.Restoration

structure Fits (records : List Record) (listing : List String) : Prop where
  nodup : (records.map Record.name).Nodup
  listed : ∀ r ∈ records, r.kind ≠ .removed → r.name ∈ listing
  unlisted : ∀ r ∈ records, r.kind = .removed → r.name ∉ listing

variable {σ : Type}

def Takes (place : Place σ) (put : σ → String × Bytes → σ) : Prop :=
  ∀ s name bytes, place s name bytes = (.ok (), put s (name, bytes))

def handed (content : String → Bytes) : Step → Option (String × Bytes)
  | .copy name => some (name, content name)
  | .put name bytes => some (name, bytes)
  | .skip _ => none
  | .refuse _ _ => none

def counted (content : String → Bytes) (c : Counts) : Step → Counts
  | .copy name =>
    { c with copied := c.copied + 1, bytes := c.bytes + (content name).length }
  | .put _ bytes => { c with restored := c.restored + 1, bytes := c.bytes + bytes.length }
  | .skip _ => { c with skipped := c.skipped + 1 }
  | .refuse _ _ => c

/-- Nothing is refused, and only a listed resource is copied. -/
def Performable (listing : List String) : Step → Prop
  | .copy name => name ∈ listing
  | .put _ _ => True
  | .skip _ => True
  | .refuse _ _ => False

variable {derived : σ → Collection} {place : Place σ} {put : σ → String × Bytes → σ}
  {listing : List String} {content : String → Bytes}

/-! ## Steps -/

theorem perform_performable (hd : ∀ s, (derived s).Faithful listing content)
    (ht : Takes place put) {step : Step} (h : Performable listing step) (c : Counts) (s : σ) :
    (perform derived place c s step).result = .ok (counted content c step) ∧
      (perform derived place c s step).state = (handed content step).toList.foldl put s := by
  cases step with
  | copy name => simp [perform, hand, (hd s).read_eq name h, ht s, counted, handed, Except.map]
  | put name bytes => simp [perform, hand, ht s, counted, handed, Except.map]
  | skip name => exact ⟨rfl, rfl⟩
  | refuse name mismatch => exact h.elim

theorem performAll_cons_ok {step : Step} {c c' : Counts} {s : σ} (steps : List Step)
    (h : (perform derived place c s step).result = .ok c') :
    performAll derived place c s (step :: steps) =
      let run := perform derived place c s step
      let more := performAll derived place c' run.state steps
      ⟨run.journal ++ more.journal, more.result, more.state⟩ := by
  rw [performAll]
  generalize perform derived place c s step = run at h
  obtain ⟨journal, result, state⟩ := run
  dsimp only at h
  subst h
  rfl

/-- A run of steps that refuse nothing; each state allows for what is still to be handed on. -/
theorem performAll_carried (ready : List (String × Bytes) → σ → Prop) {steps : List Step}
    (hread : ∀ {rest s name}, ready rest s → .copy name ∈ steps →
      (derived s).read name = .ok (content name))
    (hplace : ∀ {rest s name bytes}, ready ((name, bytes) :: rest) s →
      ∃ t, place s name bytes = (.ok (), t) ∧ ready rest t)
    (hrefuse : ∀ name mismatch, .refuse name mismatch ∉ steps) (c : Counts) {s : σ}
    (h : ready (steps.filterMap (handed content)) s) :
    (performAll derived place c s steps).result = .ok (steps.foldl (counted content) c) ∧
      ready [] (performAll derived place c s steps).state := by
  induction steps generalizing c s with
  | nil => exact ⟨rfl, h⟩
  | cons step steps ih =>
    have hstep : (perform derived place c s step).result = .ok (counted content c step) ∧
        ready (steps.filterMap (handed content)) (perform derived place c s step).state := by
      cases step with
      | copy name =>
        have hr := hread h (List.mem_cons_self ..)
        obtain ⟨t, ht, hready⟩ := hplace h
        simp only [perform, hr, hand, ht]
        exact ⟨rfl, hready⟩
      | put name bytes =>
        obtain ⟨t, ht, hready⟩ := hplace h
        simp only [perform, hand, ht]
        exact ⟨rfl, hready⟩
      | skip name => exact ⟨rfl, h⟩
      | refuse name mismatch => exact absurd (List.mem_cons_self ..) (hrefuse name mismatch)
    rw [performAll_cons_ok steps hstep.1]
    exact ih (fun hready hmem => hread hready (List.mem_cons_of_mem step hmem))
      (fun name mismatch hmem => hrefuse name mismatch (List.mem_cons_of_mem step hmem)) _ hstep.2

theorem not_refuse_of_performable {steps : List Step} (h : ∀ step ∈ steps, Performable listing step)
    (name : String) (mismatch : Mismatch) : .refuse name mismatch ∉ steps := fun hmem => h _ hmem

theorem performAll_performable (hd : ∀ s, (derived s).Faithful listing content)
    (ht : Takes place put) {steps : List Step} (h : ∀ step ∈ steps, Performable listing step)
    (c : Counts) (s : σ) :
    (performAll derived place c s steps).result = .ok (steps.foldl (counted content) c) ∧
      (performAll derived place c s steps).state =
        (steps.filterMap (handed content)).foldl put s :=
  performAll_carried
    (fun rest s' => rest.foldl put s' = (steps.filterMap (handed content)).foldl put s)
    (fun _ hmem => (hd _).read_eq _ (h _ hmem)) (fun hready => ⟨_, ht _ _ _, hready⟩)
    (not_refuse_of_performable h) c rfl

/-! ## The release -/

theorem state_restore (records : List Record) (s : σ) :
    (restore derived place records s).state = (rebuild derived place records s).state := by
  unfold restore
  dsimp only
  split <;> rfl

/-- A run without the state that it leaves. -/
def Run.traced {α : Type} (run : Run σ α) : Traced DeltaError α := ⟨run.journal, run.result⟩

/-- A restoration is the rebuilding, then the release, and a remark if both succeed. -/
theorem traced_restore (derived : σ → Collection) (place : Place σ) (records : List Record)
    (s : σ) : (restore derived place records s).traced = (do
      let run := rebuild derived place records s
      let c ← Release.after run.traced (Release.one .derived (derived run.state))
      Traced.say (.restored c.copied c.restored c.skipped c.bytes)
      return c) := by
  simp only [Run.traced, restore]
  split
  · next e hresult => rw [Traced.bind_error hresult]
  · next c hresult =>
    rw [Traced.bind_ok hresult]
    rfl

theorem result_restore (hclose : ∀ t, (derived t).close = .ok ()) (records : List Record) (s : σ) :
    (restore derived place records s).result = (rebuild derived place records s).result := by
  have htraced := congrArg Traced.result (traced_restore derived place records s)
  rw [Traced.result_bind, Release.result_after _ (by exact hclose _)] at htraced
  cases hresult : (rebuild derived place records s).result <;>
    simpa [Run.traced, hresult, Except.bind] using htraced

/-! ## Records that fit -/

theorem repeatedName?_eq_none {seen : List String} {records : List Record} :
    repeatedName? seen records = none ↔ Fresh seen records := by
  induction records generalizing seen with
  | nil => simp [repeatedName?, Fresh]
  | cons r records ih =>
    rw [repeatedName?, fresh_cons]
    split
    · next hseen => simp [hseen]
    · next hseen => rw [ih, and_iff_right hseen]

theorem recordOf?_eq_some {records : List Record} (hnd : (records.map Record.name).Nodup)
    {r : Record} (hr : r ∈ records) : recordOf? records r.name = some r := by
  induction records with
  | nil => cases hr
  | cons x records ih =>
    rw [List.map_cons, List.nodup_cons] at hnd
    rw [recordOf?, List.find?_cons]
    rcases List.mem_cons.1 hr with rfl | hr
    · rw [beq_self_eq_true]
    · have hne : x.name ≠ r.name := fun h => hnd.1 (h ▸ List.mem_map_of_mem hr)
      rw [beq_eq_false_iff_ne.2 hne]
      exact ih hnd.2 hr

theorem recordOf?_eq_none {records : List Record} {name : String} :
    recordOf? records name = none ↔ name ∉ records.map Record.name := by
  rw [recordOf?, List.find?_eq_none, List.mem_map]
  simp

theorem mem_of_recordOf? {records : List Record} {name : String} {r : Record}
    (h : recordOf? records name = some r) : r ∈ records ∧ r.name = name :=
  ⟨List.mem_of_find?_eq_some h, by simpa using List.find?_some h⟩

theorem Fits.performable {records : List Record} (h : Fits records listing) :
    ∀ step ∈ steps records listing, Performable listing step := by
  intro step hstep
  rw [steps, List.mem_append] at hstep
  rcases hstep with hstep | hstep
  · obtain ⟨name, hname, rfl⟩ := List.mem_map.1 hstep
    rw [List.mem_eraseDups] at hname
    unfold presentStep
    split
    · exact hname
    · exact trivial
    · exact trivial
    · next n bytes hr =>
      obtain ⟨hmem, rfl⟩ := mem_of_recordOf? hr
      exact h.unlisted _ hmem rfl hname
  · obtain ⟨r, hr, rfl⟩ := List.mem_map.1 hstep
    obtain ⟨hmem, hunlisted⟩ := List.mem_filter.1 hr
    have hunlisted : r.name ∉ listing := by simpa using hunlisted
    cases r with
    | removed name bytes => exact trivial
    | added name => exact hunlisted (h.listed _ hmem (by simp [Record.kind]))
    | modified name bytes => exact hunlisted (h.listed _ hmem (by simp [Record.kind]))

theorem rebuild_fits {records : List Record} (h : Fits records listing) {s : σ}
    (hnames : (derived s).names = .ok listing) :
    (rebuild derived place records s).result =
        (performAll derived place {} s (steps records listing)).result ∧
      (rebuild derived place records s).state =
        (performAll derived place {} s (steps records listing)).state := by
  have hnone : repeatedName? [] records = none :=
    repeatedName?_eq_none.2 (fresh_of_nodup h.nodup)
  simp only [rebuild, hnone, hnames, and_self]

theorem restore_carried (ready : List (String × Bytes) → σ → Prop) {records : List Record}
    (h : Fits records listing)
    (hread : ∀ {rest s name}, ready rest s → .copy name ∈ steps records listing →
      (derived s).read name = .ok (content name))
    (hplace : ∀ {rest s name bytes}, ready ((name, bytes) :: rest) s →
      ∃ t, place s name bytes = (.ok (), t) ∧ ready rest t)
    (hclose : ∀ s, (derived s).close = .ok ()) {s : σ} (hnames : (derived s).names = .ok listing)
    (hready : ready ((steps records listing).filterMap (handed content)) s) :
    (restore derived place records s).result =
        .ok ((steps records listing).foldl (counted content) {}) ∧
      ready [] (restore derived place records s).state := by
  rw [result_restore hclose, state_restore, (rebuild_fits h hnames).1, (rebuild_fits h hnames).2]
  exact performAll_carried ready hread hplace (not_refuse_of_performable h.performable) {} hready

theorem restore_fits (hd : ∀ s, (derived s).Faithful listing content) (ht : Takes place put)
    {records : List Record} (h : Fits records listing) (s : σ) :
    (restore derived place records s).result =
        .ok ((steps records listing).foldl (counted content) {}) ∧
      (restore derived place records s).state =
        ((steps records listing).filterMap (handed content)).foldl put s := by
  rw [result_restore fun t => (hd t).close_eq, state_restore, (rebuild_fits h (hd s).names_eq).1,
    (rebuild_fits h (hd s).names_eq).2]
  exact performAll_performable hd ht h.performable {} s

theorem toMemory_fits {c : Collection} (hc : c.Faithful listing content)
    {records : List Record} (h : Fits records listing) :
    (toMemory c records).result =
      .ok (Memory.ofList ((steps records listing).filterMap (handed content))) := by
  have ht : Takes inMemory fun m e => m.push e.1 e.2 := fun s name bytes => rfl
  obtain ⟨hresult, hstate⟩ := restore_fits (fun _ => hc) ht h {}
  rw [toMemory]
  simp only [hresult, hstate]
  rfl

end CollectionDelta.Restoration
