import CollectionDelta.Proofs.Restoration.Fits
import Mathlib.Data.List.Perm.Basic

/-!
A restoration accepts exactly the records that fit derived, and hands on base.

* `result_rebuild_of_not_fits`: records that do not fit are told to be inconsistent.
* `Kept`, `removedEntries`: what is handed on for the names that derived lists, and after them;
  `handed_steps` says that the steps do this.
* `foldl_counted`, `tally`: what the counts of a run are, by its steps and by the records.
* `restore_iff_fits`: the restoration as a whole.
-/

namespace CollectionDelta.Restoration

variable {σ : Type} {derived : σ → Collection} {place : Place σ} {put : σ → String × Bytes → σ}
  {listing : List String} {content : String → Bytes} {records : List Record}

/-! ## Records that do not fit -/

/-- The first step that is refused ends a run with its refusal; the steps before it succeed. -/
theorem performAll_refused (hd : ∀ s, (derived s).Faithful listing content)
    (ht : Takes place put) {steps : List Step}
    (hsteps : ∀ step ∈ steps, Performable listing step ∨ ∃ name m, step = .refuse name m)
    (hrefuse : ∃ name m, .refuse name m ∈ steps) (c : Counts) (s : σ) :
    ∃ name m, (performAll derived place c s steps).result = .error (.inconsistent name m) := by
  induction steps generalizing c s with
  | nil =>
    obtain ⟨name, m, h⟩ := hrefuse
    cases h
  | cons step steps ih =>
    rcases hsteps step (List.mem_cons_self ..) with hstep | ⟨name, m, rfl⟩
    · obtain ⟨hresult, -⟩ := perform_performable hd ht hstep c s
      have hrest : ∃ name m, Step.refuse name m ∈ steps := by
        obtain ⟨name, m, hmem⟩ := hrefuse
        rcases List.mem_cons.1 hmem with rfl | hmem
        · exact hstep.elim
        · exact ⟨name, m, hmem⟩
      rw [performAll_cons_ok steps hresult]
      exact ih (fun st hst => hsteps st (List.mem_cons_of_mem _ hst)) hrest _ _
    · exact ⟨name, m, rfl⟩

/-- What is to be done about a record of which derived lists the name. -/
def listedStep : Record → Step
  | .added name => .skip name
  | .modified name bytes => .put name bytes
  | .removed name _ => .refuse name .removedButPresent

theorem presentStep_of_mem (hnd : (records.map Record.name).Nodup) {r : Record}
    (hr : r ∈ records) : presentStep records r.name = listedStep r := by
  rw [presentStep, recordOf?_eq_some hnd hr]
  cases r <;> rfl

theorem presentStep_of_not_mem {name : String} (h : name ∉ records.map Record.name) :
    presentStep records name = .copy name := by
  rw [presentStep, recordOf?_eq_none.2 h]

theorem performable_or_refuse {step : Step} (h : step ∈ steps records listing) :
    Performable listing step ∨ ∃ name m, step = .refuse name m := by
  rcases List.mem_append.1 h with h | h
  · obtain ⟨name, hname, rfl⟩ := List.mem_map.1 h
    unfold presentStep
    split
    · exact .inl (List.mem_eraseDups.1 hname)
    · exact .inl trivial
    · exact .inl trivial
    · exact .inr ⟨_, _, rfl⟩
  · obtain ⟨r, -, rfl⟩ := List.mem_map.1 h
    cases r with
    | removed name bytes => exact .inl trivial
    | added name => exact .inr ⟨_, _, rfl⟩
    | modified name bytes => exact .inr ⟨_, _, rfl⟩

/-- A record that does not fit has a step of its own, which is refused. -/
theorem exists_refuse (hnd : (records.map Record.name).Nodup) (h : ¬ Fits records listing) :
    ∃ name m, .refuse name m ∈ steps records listing := by
  have hunfit : ¬ ∀ r ∈ records, (r.kind ≠ .removed ↔ r.name ∈ listing) := by
    intro hall
    refine h ⟨hnd, fun r hr hkind => (hall r hr).1 hkind, fun r hr hkind hmem => ?_⟩
    exact (hall r hr).2 hmem hkind
  simp only [not_forall] at hunfit
  obtain ⟨r, hr, hne⟩ := hunfit
  by_cases hlisted : r.name ∈ listing
  · have hkind : r.kind = .removed := by simpa [hlisted] using hne
    have hstep : presentStep records r.name = .refuse r.name .removedButPresent := by
      rw [presentStep_of_mem hnd hr]
      cases r with
      | removed name bytes => rfl
      | added name => cases hkind
      | modified name bytes => cases hkind
    refine ⟨r.name, .removedButPresent, List.mem_append_left _ ?_⟩
    exact List.mem_map.2 ⟨r.name, List.mem_eraseDups.2 hlisted, hstep⟩
  · have hkind : r.kind ≠ .removed := by simpa [hlisted] using hne
    have hstep : absentStep r = .refuse r.name .missing := by
      cases r with
      | removed name bytes => exact absurd rfl hkind
      | added name => rfl
      | modified name bytes => rfl
    refine ⟨r.name, .missing, List.mem_append_right _ (List.mem_map.2 ⟨r, ?_, hstep⟩)⟩
    exact List.mem_filter.2 ⟨hr, by simpa using hlisted⟩

theorem result_rebuild_of_not_fits (hd : ∀ s, (derived s).Faithful listing content)
    (ht : Takes place put) (h : ¬ Fits records listing) (s : σ) :
    ∃ name m, (rebuild derived place records s).result = .error (.inconsistent name m) := by
  cases hrepeated : repeatedName? [] records with
  | some name => exact ⟨name, .listedTwice, by simp only [rebuild, hrepeated]⟩
  | none =>
    have hnd := (repeatedName?_eq_none.1 hrepeated).1
    obtain ⟨name, m, hresult⟩ := performAll_refused hd ht
      (fun step => performable_or_refuse) (exists_refuse hnd h) {} s
    exact ⟨name, m, by simpa only [rebuild, hrepeated, (hd s).names_eq] using hresult⟩

/-! ## What is handed on -/

/-- What is handed on for names that derived lists, in their order: derived's bytes of a name that
no record has, the record's bytes of a modified one, nothing for an added one. -/
inductive Kept (records : List Record) (content : String → Bytes) :
    List String → List (String × Bytes) → Prop
  | nil : Kept records content [] []
  | copied {name : String} {names : List String} {entries : List (String × Bytes)}
      (h : name ∉ records.map Record.name) (hs : Kept records content names entries) :
      Kept records content (name :: names) ((name, content name) :: entries)
  | modified {name : String} {bytes : Bytes} {names : List String}
      {entries : List (String × Bytes)} (h : .modified name bytes ∈ records)
      (hs : Kept records content names entries) :
      Kept records content (name :: names) ((name, bytes) :: entries)
  | added {name : String} {names : List String} {entries : List (String × Bytes)}
      (h : .added name ∈ records) (hs : Kept records content names entries) :
      Kept records content (name :: names) entries

/-- What is handed on after that: the removed resources, in the order of their records. -/
def removedEntries (records : List Record) : List (String × Bytes) :=
  records.filterMap fun
    | .removed name bytes => some (name, bytes)
    | .added _ => none
    | .modified _ _ => none

/-- Two records of one name are one record. -/
theorem eq_of_name_eq (hnd : (records.map Record.name).Nodup) {r r' : Record} (hr : r ∈ records)
    (hr' : r' ∈ records) (h : r.name = r'.name) : r = r' := by
  have hsome := recordOf?_eq_some hnd hr
  rw [h, recordOf?_eq_some hnd hr'] at hsome
  exact (Option.some.inj hsome).symm

/-- Records with distinct names leave no choice. -/
theorem Kept.unique (hnd : (records.map Record.name).Nodup) {names : List String}
    {entries entries' : List (String × Bytes)} (h : Kept records content names entries)
    (h' : Kept records content names entries') : entries = entries' := by
  induction h generalizing entries' with
  | nil => cases h'; rfl
  | copied hname _ ih =>
    cases h' with
    | copied _ hs' => rw [ih hs']
    | modified hr' => exact absurd (List.mem_map_of_mem hr') hname
    | added hr' => exact absurd (List.mem_map_of_mem hr') hname
  | modified hr _ ih =>
    cases h' with
    | copied hname => exact absurd (List.mem_map_of_mem hr) hname
    | modified hr' hs' =>
      cases eq_of_name_eq hnd hr hr' rfl
      rw [ih hs']
    | added hr' => cases eq_of_name_eq hnd hr hr' rfl
  | added hr _ ih =>
    cases h' with
    | copied hname => exact absurd (List.mem_map_of_mem hr) hname
    | modified hr' => cases eq_of_name_eq hnd hr hr' rfl
    | added _ hs' => exact ih hs'

theorem Kept.sublist {names : List String} {entries : List (String × Bytes)}
    (h : Kept records content names entries) : (entries.map Prod.fst).Sublist names := by
  induction h with
  | nil => exact List.Sublist.refl _
  | copied _ _ ih => exact ih.cons_cons _
  | modified _ _ ih => exact ih.cons_cons _
  | added _ _ ih => exact ih.cons _

theorem kept_presentStep (content : String → Bytes) {names : List String}
    (h : ∀ name ∈ names, ∀ bytes, .removed name bytes ∉ records) :
    Kept records content names
      ((names.map (presentStep records)).filterMap (handed content)) := by
  induction names with
  | nil => exact .nil
  | cons name names ih =>
    have hrest := ih fun n hn => h n (List.mem_cons_of_mem _ hn)
    rw [List.map_cons, presentStep]
    cases hr : recordOf? records name with
    | none => exact .copied (recordOf?_eq_none.1 hr) hrest
    | some r =>
      obtain ⟨hmem, rfl⟩ := mem_of_recordOf? hr
      cases r with
      | added name => exact .added hmem hrest
      | modified name bytes => exact .modified hmem hrest
      | removed name bytes => exact absurd hmem (h name (List.mem_cons_self ..) bytes)

theorem map_fst_removedEntries (records : List Record) :
    (removedEntries records).map Prod.fst =
      (records.filter fun r => r.kind = .removed).map Record.name := by
  induction records with
  | nil => rfl
  | cons r records ih =>
    cases r with
    | added name => simpa [removedEntries, Record.kind] using ih
    | removed name bytes => simpa [removedEntries, Record.kind, Record.name] using ih
    | modified name bytes => simpa [removedEntries, Record.kind] using ih

theorem Fits.filter_unlisted (h : Fits records listing) :
    (records.filter fun r => !listing.contains r.name) =
      records.filter fun r => r.kind = .removed := by
  refine List.filter_congr fun r hr => ?_
  by_cases hkind : r.kind = .removed
  · simpa [hkind] using h.unlisted r hr hkind
  · simpa [hkind] using h.listed r hr hkind

theorem handed_absentSteps (records : List Record) :
    ((records.filter fun r => r.kind = .removed).map absentStep).filterMap (handed content) =
      removedEntries records := by
  induction records with
  | nil => rfl
  | cons r records ih =>
    cases r with
    | added name => simpa [removedEntries, Record.kind] using ih
    | removed name bytes => simpa [removedEntries, Record.kind, absentStep, handed] using ih
    | modified name bytes => simpa [removedEntries, Record.kind] using ih

theorem handed_steps (h : Fits records listing) (content : String → Bytes) :
    ∃ kept, Kept records content listing.eraseDups kept ∧
      (steps records listing).filterMap (handed content) = kept ++ removedEntries records := by
  refine ⟨_, kept_presentStep content fun name hname bytes hr => ?_, ?_⟩
  · exact h.unlisted _ hr rfl (List.mem_eraseDups.1 hname)
  · rw [steps, List.filterMap_append, h.filter_unlisted, handed_absentSteps]

theorem nodup_handed (h : Fits records listing) {kept : List (String × Bytes)}
    (hkept : Kept records content listing.eraseDups kept) :
    ((kept ++ removedEntries records).map Prod.fst).Nodup := by
  rw [List.map_append, List.nodup_append, map_fst_removedEntries]
  refine ⟨hkept.sublist.nodup (nodup_eraseDups listing),
    (List.filter_sublist.map Record.name).nodup h.nodup, ?_⟩
  rintro n hn _ hn' rfl
  obtain ⟨r, hr, rfl⟩ := List.mem_map.1 hn'
  obtain ⟨hr, hkind⟩ := List.mem_filter.1 hr
  have hlisted : r.name ∈ listing := List.mem_eraseDups.1 (hkept.sublist.subset hn)
  exact h.unlisted r hr (of_decide_eq_true hkind) hlisted

/-! ## What is counted -/

def Step.copies : Step → Bool
  | .copy _ => true
  | _ => false

def Step.puts : Step → Bool
  | .put _ _ => true
  | _ => false

def Step.skips : Step → Bool
  | .skip _ => true
  | _ => false

/-- The bytes of all entries together. -/
def totalBytes : List (String × Bytes) → Nat
  | [] => 0
  | e :: entries => e.2.length + totalBytes entries

theorem foldl_counted (content : String → Bytes) (c : Counts) (steps : List Step) :
    steps.foldl (counted content) c =
      { copied := c.copied + steps.countP Step.copies
        restored := c.restored + steps.countP Step.puts
        skipped := c.skipped + steps.countP Step.skips
        bytes := c.bytes + totalBytes (steps.filterMap (handed content)) } := by
  induction steps generalizing c with
  | nil => rfl
  | cons step steps ih =>
    rw [List.foldl_cons, ih]
    simp only [List.countP_cons, List.filterMap_cons]
    cases step with
    | copy name =>
      simp [counted, handed, totalBytes, Step.copies, Step.puts, Step.skips]
      omega
    | put name bytes =>
      simp [counted, handed, totalBytes, Step.copies, Step.puts, Step.skips]
      omega
    | skip name =>
      simp [counted, handed, Step.copies, Step.puts, Step.skips]
      omega
    | refuse name mismatch => simp [counted, handed, Step.copies, Step.puts, Step.skips]

/-- Names without repetition are as many as the records that they are the names of. -/
theorem countP_names {names : List String} {p : String → Bool} {q : Record → Bool}
    (hnames : names.Nodup) (hnd : (records.map Record.name).Nodup)
    (h : ∀ n, n ∈ names ∧ p n = true ↔ ∃ r ∈ records, q r = true ∧ r.name = n) :
    names.countP p = records.countP q := by
  have hperm : (names.filter p).Perm ((records.filter q).map Record.name) := by
    rw [List.perm_ext_iff_of_nodup (hnames.filter p)
      ((List.filter_sublist.map Record.name).nodup hnd)]
    intro n
    rw [List.mem_filter, h, List.mem_map]
    constructor
    · rintro ⟨r, hr, hq, rfl⟩
      exact ⟨r, List.mem_filter.2 ⟨hr, hq⟩, rfl⟩
    · rintro ⟨r, hr, rfl⟩
      exact ⟨r, (List.mem_filter.1 hr).1, (List.mem_filter.1 hr).2, rfl⟩
  rw [List.countP_eq_length_filter, List.countP_eq_length_filter, hperm.length_eq, List.length_map]

/-- A test that is passed by steps of records that fit only is passed as often by the steps of the
listed names as by those records. -/
theorem countP_presentStep (h : Fits records listing) {test : Step → Bool}
    (hcopy : ∀ name, test (.copy name) = false)
    (hrefuse : ∀ name m, test (.refuse name m) = false) :
    (listing.eraseDups.map (presentStep records)).countP test =
      records.countP fun r => test (listedStep r) := by
  rw [List.countP_map]
  refine countP_names (nodup_eraseDups listing) h.nodup fun n => ?_
  rw [Function.comp_apply, List.mem_eraseDups]
  constructor
  · rintro ⟨-, htest⟩
    by_cases hn : n ∈ records.map Record.name
    · obtain ⟨r, hr, rfl⟩ := List.mem_map.1 hn
      rw [presentStep_of_mem h.nodup hr] at htest
      exact ⟨r, hr, htest, rfl⟩
    · rw [presentStep_of_not_mem hn, hcopy] at htest
      cases htest
  · rintro ⟨r, hr, htest, rfl⟩
    rw [presentStep_of_mem h.nodup hr]
    refine ⟨h.listed r hr fun hkind => ?_, htest⟩
    cases r with
    | removed name bytes =>
      rw [listedStep, hrefuse] at htest
      cases htest
    | added name => cases hkind
    | modified name bytes => cases hkind

theorem countP_steps (h : Fits records listing) {test : Step → Bool}
    (hcopy : ∀ name, test (.copy name) = false)
    (hrefuse : ∀ name m, test (.refuse name m) = false) :
    (steps records listing).countP test = (records.countP fun r => test (listedStep r)) +
      records.countP fun r => test (absentStep r) && decide (r.kind = .removed) := by
  rw [steps, List.countP_append, countP_presentStep h hcopy hrefuse, h.filter_unlisted,
    List.countP_map, List.countP_filter]
  rfl

/-- Copied are the names that no record has, restored the modified and the removed ones, skipped the
added ones. -/
def tally (records : List Record) (listing : List String) (entries : List (String × Bytes)) :
    Counts where
  copied := listing.eraseDups.countP fun n => n ∉ records.map Record.name
  restored := (records.countP fun r => r.kind = .modified) +
    records.countP fun r => r.kind = .removed
  skipped := records.countP fun r => r.kind = .added
  bytes := totalBytes entries

theorem countP_copies (h : Fits records listing) : (steps records listing).countP Step.copies =
    listing.eraseDups.countP fun n => n ∉ records.map Record.name := by
  have habsent : ((records.filter fun r => !listing.contains r.name).map absentStep).countP
      Step.copies = 0 := by
    rw [List.countP_map, List.countP_eq_zero]
    intro r _
    cases r <;> simp [absentStep, Step.copies]
  rw [steps, List.countP_append, habsent, Nat.add_zero, List.countP_map]
  refine List.countP_congr fun n _ => ?_
  by_cases hn : n ∈ records.map Record.name
  · obtain ⟨r, hr, rfl⟩ := List.mem_map.1 hn
    rw [Function.comp_apply, presentStep_of_mem h.nodup hr, decide_eq_false (not_not_intro hn)]
    cases r <;> rfl
  · rw [Function.comp_apply, presentStep_of_not_mem hn, decide_eq_true hn]
    rfl

theorem countP_puts (h : Fits records listing) : (steps records listing).countP Step.puts =
    (records.countP fun r => r.kind = .modified) + records.countP fun r => r.kind = .removed := by
  rw [countP_steps h (fun _ => rfl) fun _ _ => rfl]
  congr 2
  · funext r
    cases r <;> rfl
  · funext r
    cases r <;> rfl

theorem countP_skips (h : Fits records listing) : (steps records listing).countP Step.skips =
    records.countP fun r => r.kind = .added := by
  have hnone :
      (records.countP fun r => (absentStep r).skips && decide (r.kind = .removed)) = 0 := by
    rw [List.countP_eq_zero]
    intro r _
    cases r <;> simp [absentStep, Step.skips]
  rw [countP_steps h (fun _ => rfl) fun _ _ => rfl, hnone, Nat.add_zero]
  congr 1
  funext r
  cases r <;> rfl

theorem foldl_steps (h : Fits records listing) (content : String → Bytes) :
    (steps records listing).foldl (counted content) {} =
      tally records listing ((steps records listing).filterMap (handed content)) := by
  rw [foldl_counted, countP_copies h, countP_puts h, countP_skips h]
  simp [tally]

/-! ## The restoration as a whole -/

/-- A restoration succeeds if and only if the records fit derived, and is inconsistent otherwise. It
hands on each name of base once: those that derived lists in derived's order, then the removed ones
in the order of their records; and counts them. -/
theorem restore_iff_fits (hd : ∀ s, (derived s).Faithful listing content) (ht : Takes place put)
    (records : List Record) (s : σ) :
    ((∃ c, (restore derived place records s).result = .ok c) ↔ Fits records listing) ∧
      (¬ Fits records listing → ∃ name m,
        (restore derived place records s).result = .error (.inconsistent name m)) ∧
      (Fits records listing → ∃ kept, Kept records content listing.eraseDups kept ∧
        ((kept ++ removedEntries records).map Prod.fst).Nodup ∧
        (restore derived place records s).state = (kept ++ removedEntries records).foldl put s ∧
        (restore derived place records s).result =
          .ok (tally records listing (kept ++ removedEntries records))) := by
  have hunfit : ¬ Fits records listing → ∃ name m,
      (restore derived place records s).result = .error (.inconsistent name m) := by
    intro h
    rw [result_restore fun t => (hd t).close_eq]
    exact result_rebuild_of_not_fits hd ht h s
  refine ⟨⟨?_, ?_⟩, hunfit, ?_⟩
  · rintro ⟨c, hc⟩
    refine Classical.byContradiction fun h => ?_
    obtain ⟨name, m, herror⟩ := hunfit h
    rw [hc] at herror
    cases herror
  · intro h
    exact ⟨_, (restore_fits hd ht h s).1⟩
  · intro h
    obtain ⟨kept, hkept, hentries⟩ := handed_steps h content
    obtain ⟨hresult, hstate⟩ := restore_fits hd ht h s
    rw [foldl_steps h, hentries] at hresult
    rw [hentries] at hstate
    exact ⟨kept, hkept, nodup_handed h hkept, hstate, hresult⟩

/-- One resource of each sort, and a name that derived lists twice. -/
theorem restore_each_sort :
    let derived := (Memory.ofList [("keep", [1]), ("edit", [2]), ("extra", []), ("keep", [1])])
    let records := [.modified "edit" [7], .removed "gone" [8, 9], .added "extra"]
    let place : Place (List (String × Bytes)) := fun s name bytes => (.ok (), s ++ [(name, bytes)])
    let run := restore (fun _ => derived.toCollection) place records []
    run.result = .ok ⟨1, 2, 1, 4⟩ ∧
      run.state = [("keep", [1]), ("edit", [7]), ("gone", [8, 9])] := by
  intro derived records place run
  have hd : ∀ s : List (String × Bytes), derived.toCollection.Faithful
      ["keep", "edit", "extra", "keep"] fun n => (derived.get? n).getD [] :=
    fun _ => Memory.faithful_toCollection rfl
  have ht : Takes place fun s e => s ++ [e] := fun s name bytes => rfl
  have hfits : Fits records ["keep", "edit", "extra", "keep"] :=
    ⟨by decide, by decide, by decide⟩
  obtain ⟨kept, hkept, -, hstate, hresult⟩ := (restore_iff_fits hd ht records []).2.2 hfits
  have hexpected : Kept records (fun n => (derived.get? n).getD []) ["keep", "edit", "extra"]
      [("keep", [1]), ("edit", [7])] :=
    .copied (by decide) (.modified (by decide) (.added (by decide) .nil))
  obtain rfl := hkept.unique hfits.nodup hexpected
  exact ⟨hresult, hstate⟩

end CollectionDelta.Restoration
