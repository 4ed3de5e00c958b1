import CollectionDelta.Proofs.Format.Checked
import CollectionDelta.Proofs.Restoration.Acceptance
import CollectionDelta.Proofs.Restoration.Repeated
import CollectionDelta.Proofs.Restoration.State
import CollectionDelta.Proofs.RoundTrip
import CollectionDelta.Proofs.Summary

/-!
What the counts of a restoration that succeeds add up to.

* `performAll_counted`, `restore_counted`: the counts are those of the steps, if what is copied is
  what derived held at the beginning; the invariant speaks of the place only.
* `Fits.alike`, `foldl_steps_alike`: records of the same kinds, names and sizes can be restored and
  count alike.
* `Fits.length_listing`, `length_handed`: the names of derived and those that are handed on, by what
  was done about them.
* `tally_expected`: the counts of restoring a difference.
-/

namespace CollectionDelta.Restoration

open Difference (expected)

variable {σ : Type} {derived : σ → Collection} {place : Place σ} {content : String → Bytes}
  {listing : List String} {records found : List Record}

/-! ## Runs that succeed -/

theorem perform_counted {step : Step} {c c' : Counts} {s : σ}
    (hread : ∀ {name bytes}, step = .copy name → (derived s).read name = .ok bytes →
      bytes = content name)
    (hok : (perform derived place c s step).result = .ok c') : c' = counted content c step := by
  have hmap {r : Except DeltaError Unit} {d : Counts} (h : (r.map fun _ => d) = .ok c') :
      c' = d := by
    cases r with
    | error e => cases h
    | ok _ => exact (Except.ok.inj h).symm
  cases step with
  | copy name =>
    cases hbytes : (derived s).read name with
    | error f =>
      simp only [perform, hbytes] at hok
      cases hok
    | ok bytes =>
      simp only [perform, hbytes] at hok
      rw [hmap hok, hread rfl hbytes, counted]
  | put name bytes => exact hmap hok
  | skip name => exact (Except.ok.inj hok).symm
  | refuse name mismatch => cases hok

/-- What is copied is what the collection holds in each state that the place can come to. -/
theorem performAll_counted (I : σ → Prop) {steps : List Step}
    (hplace : ∀ s name bytes, I s → I (place s name bytes).2)
    (hread : ∀ {s name bytes}, I s → .copy name ∈ steps → (derived s).read name = .ok bytes →
      bytes = content name)
    {c c' : Counts} {s : σ} (hs : I s) (hok : (performAll derived place c s steps).result = .ok c') :
    c' = steps.foldl (counted content) c := by
  induction steps generalizing c s with
  | nil => exact (Except.ok.inj hok).symm
  | cons step steps ih =>
    obtain ⟨c₁, hstep, hrest, -⟩ := performAll_cons_eq_ok hok
    have hc₁ : c₁ = counted content c step :=
      perform_counted (fun heq hb => hread hs (heq ▸ List.mem_cons_self ..) hb) hstep
    rw [List.foldl_cons, ← hc₁]
    exact ih (fun hs' hmem => hread hs' (List.mem_cons_of_mem step hmem))
      (state_perform_of_place hplace c hs step) hrest

theorem restore_counted (h : Fits records listing) (I : σ → Prop)
    (hplace : ∀ s name bytes, I s → I (place s name bytes).2)
    (hread : ∀ {s name bytes}, I s → .copy name ∈ steps records listing →
      (derived s).read name = .ok bytes → bytes = content name)
    (hclose : ∀ s, (derived s).close = .ok ()) {s : σ} (hnames : (derived s).names = .ok listing)
    (hs : I s) {c : Counts} (hok : (restore derived place records s).result = .ok c) :
    c = (steps records listing).foldl (counted content) {} := by
  rw [result_restore hclose, (rebuild_fits h hnames).1] at hok
  exact performAll_counted I hplace hread hs hok

/-! ## Records that are alike -/

theorem labels_alike (h : List.Forall₂ Record.Alike records found) :
    records.map Record.label = found.map Record.label := by
  induction h with
  | nil => rfl
  | cons hrx _ ih =>
    rw [List.map_cons, List.map_cons, ih,
      Record.label_eq_iff.2 ⟨hrx.kind_eq.symm, hrx.name_eq.symm⟩]

theorem Fits.alike (h : Fits records listing) (halike : List.Forall₂ Record.Alike records found) :
    Fits found listing := fits_of_labels (labels_alike halike) h

theorem recordOf?_alike (h : List.Forall₂ Record.Alike records found) (name : String) :
    (recordOf? records name = none ∧ recordOf? found name = none) ∨
      ∃ r x, recordOf? records name = some r ∧ recordOf? found name = some x ∧ r.Alike x := by
  induction h with
  | nil => exact .inl ⟨rfl, rfl⟩
  | @cons r x records found hrx _ ih =>
    simp only [recordOf?, List.find?_cons, hrx.name_eq]
    split
    · exact .inr ⟨r, x, rfl, rfl, hrx⟩
    · exact ih

theorem counted_put {name name' : String} {bytes bytes' : Bytes} (c : Counts)
    (h : bytes'.length = bytes.length) :
    counted content c (.put name' bytes') = counted content c (.put name bytes) := by
  rw [counted, counted, h]

theorem counted_presentStep_alike (h : List.Forall₂ Record.Alike records found) (c : Counts)
    (name : String) : counted content c (presentStep found name) =
      counted content c (presentStep records name) := by
  unfold presentStep
  rcases recordOf?_alike h name with ⟨hr, hx⟩ | ⟨r, x, hr, hx, hkind, -, hsize⟩
  · rw [hr, hx]
  · rw [hr, hx]
    cases r <;> cases x <;> cases hkind
    · rfl
    · rfl
    · exact counted_put c hsize

theorem counted_absentStep_alike {r x : Record} (h : r.Alike x) (c : Counts) :
    counted content c (absentStep x) = counted content c (absentStep r) := by
  obtain ⟨hkind, -, hsize⟩ := h
  cases r <;> cases x <;> cases hkind
  · rfl
  · exact counted_put c hsize
  · rfl

theorem foldl_steps_alike (h : List.Forall₂ Record.Alike records found) (content : String → Bytes)
    (listing : List String) : (steps found listing).foldl (counted content) {} =
      (steps records listing).foldl (counted content) {} := by
  have habsent (c : Counts) : ((found.filter fun r => !listing.contains r.name).map
      absentStep).foldl (counted content) c = ((records.filter fun r =>
        !listing.contains r.name).map absentStep).foldl (counted content) c := by
    induction h generalizing c with
    | nil => rfl
    | cons hrx _ ih =>
      rw [List.filter_cons, List.filter_cons, hrx.name_eq]
      split
      · rw [List.map_cons, List.map_cons, List.foldl_cons, List.foldl_cons,
          counted_absentStep_alike hrx, ih]
      · exact ih c
  have hpresent (c : Counts) (names : List String) :
      (names.map (presentStep found)).foldl (counted content) c =
        (names.map (presentStep records)).foldl (counted content) c := by
    rw [List.foldl_map, List.foldl_map]
    simp only [counted_presentStep_alike h]
  rw [steps, steps, List.foldl_append, List.foldl_append, habsent, hpresent]

/-! ## Names -/

theorem length_eq_countP_add {α : Type} (p : α → Prop) [DecidablePred p] (l : List α) :
    l.length = (l.countP fun a => p a) + l.countP fun a => ¬ p a := by
  simpa only [decide_eq_true_eq] using List.length_eq_countP_add_countP (fun a => decide (p a))

/-- A listed name has no record, or that of an added or a modified resource. -/
theorem Fits.length_listing (h : Fits records listing) (hnd : listing.Nodup) :
    listing.length = (listing.countP fun n => ¬ n ∈ records.map Record.name) +
      (Summary.ofRecords records).added + (Summary.ofRecords records).modified := by
  have hnamed : (listing.countP fun n => n ∈ records.map Record.name) =
      records.countP fun r => ¬ r.kind = .removed := by
    refine countP_names hnd h.nodup fun n => ?_
    simp only [decide_eq_true_eq, List.mem_map]
    constructor
    · rintro ⟨hn, r, hr, rfl⟩
      exact ⟨r, hr, fun hkind => h.unlisted r hr hkind hn, rfl⟩
    · rintro ⟨r, hr, hkind, rfl⟩
      exact ⟨h.listed r hr hkind, r, hr, rfl⟩
  have hkinds := Summary.total_ofRecords records
  have hkept := length_eq_countP_add (fun r => r.kind = .removed) records
  have hnames := length_eq_countP_add (fun n => n ∈ records.map Record.name) listing
  rw [hnamed] at hnames
  rw [Summary.total, Summary.ofRecords_eq] at hkinds
  rw [Summary.ofRecords_eq]
  dsimp only at hkinds ⊢
  omega

theorem length_handed (content : String → Bytes) (steps : List Step) :
    (steps.filterMap (handed content)).length =
      steps.countP Step.copies + steps.countP Step.puts := by
  induction steps with
  | nil => rfl
  | cons step steps ih =>
    rw [List.countP_cons, List.countP_cons]
    cases step with
    | copy name =>
      rw [List.filterMap_cons_some (show handed content (.copy name) = some _ from rfl),
        List.length_cons, ih]
      simp only [Step.copies, Step.puts, if_true, Bool.false_eq_true, if_false]
      omega
    | put name bytes =>
      rw [List.filterMap_cons_some (show handed content (.put name bytes) = some _ from rfl),
        List.length_cons, ih]
      simp only [Step.copies, Step.puts, if_true, Bool.false_eq_true, if_false]
      omega
    | skip name =>
      rw [List.filterMap_cons_none (show handed content (.skip name) = none from rfl), ih]
      rfl
    | refuse name mismatch =>
      rw [List.filterMap_cons_none (show handed content (.refuse name mismatch) = none from rfl),
        ih]
      rfl

theorem totalBytes_eq (entries : List (String × Bytes)) :
    totalBytes entries = (entries.map fun e => e.2.length).sum := by
  induction entries with
  | nil => rfl
  | cons e entries ih => rw [totalBytes, ih, List.map_cons, List.sum_cons]

/-! ## Differences -/

variable {lb ld : List String} {cb cd : String → Bytes}

/-- A name of derived that has no record is one of base, with the same content. -/
theorem not_mem_names_expected {n : String} (hn : n ∈ ld) :
    n ∉ (expected lb ld cb cd).map Record.name ↔ n ∈ lb ∧ cb n = cd n := by
  constructor
  · intro hnone
    have hno : ∀ r ∈ expected lb ld cb cd, r.name ≠ n :=
      fun r hr heq => hnone (List.mem_map.2 ⟨r, hr, heq⟩)
    have hb : n ∈ lb := by
      by_contra hb
      exact hno (.added n) (Difference.mem_expected.2 ⟨hn, hb⟩) rfl
    refine ⟨hb, ?_⟩
    by_contra hne
    exact hno (.modified n (cb n)) (Difference.mem_expected.2 ⟨hb, hn, hne, rfl⟩) rfl
  · rintro ⟨hb, heq⟩ hmem
    obtain ⟨r, hr, rfl⟩ := List.mem_map.1 hmem
    have hmem := Difference.mem_expected.1 hr
    cases r with
    | added name => exact hmem.2 hb
    | removed name bytes => exact hmem.2.1 hn
    | modified name bytes => exact hmem.2.2.1 heq

/-- What has the same content on both sides is copied, and with the removed, the modified and the
added names it makes up both listings. -/
theorem tally_expected (hb : lb.Nodup) (hd : ld.Nodup) :
    let s := Summary.ofRecords (expected lb ld cb cd)
    let shared := ld.countP fun n => n ∈ lb ∧ cb n = cd n
    (steps (expected lb ld cb cd) ld).foldl (counted cd) {} =
        ⟨shared, s.removed + s.modified, s.added, (lb.map fun n => (cb n).length).sum⟩ ∧
      lb.length = s.removed + s.modified + shared ∧
      ld.length = s.added + s.modified + shared := by
  intro s shared
  have hfits : Fits (expected lb ld cb cd) ld := fits_expected hb
  have hshared : (ld.countP fun n => n ∉ (expected lb ld cb cd).map Record.name) = shared :=
    List.countP_congr fun n hn => by
      simp only [decide_eq_true_eq]
      exact not_mem_names_expected hn
  have hs : s = _ := Summary.ofRecords_eq _
  have hputs : (steps (expected lb ld cb cd) ld).countP Step.puts = s.removed + s.modified := by
    rw [countP_puts hfits, hs, Nat.add_comm]
  have hcopies : (steps (expected lb ld cb cd) ld).countP Step.copies = shared := by
    rw [countP_copies hfits, eraseDups_of_nodup hd, hshared]
  have hskips : (steps (expected lb ld cb cd) ld).countP Step.skips = s.added := by
    rw [countP_skips hfits, hs]
  have hperm := restoredOrder_perm hb ld
  have hlength := length_handed cd (steps (expected lb ld cb cd) ld)
  rw [handed_expected hb, List.length_map, hperm.length_eq, hcopies, hputs] at hlength
  have hlisted : ld.length = shared + s.added + s.modified := hshared ▸ hfits.length_listing hd
  have hbytes : totalBytes ((restoredOrder lb ld).map fun n => (n, cb n)) =
      (lb.map fun n => (cb n).length).sum := by
    rw [totalBytes_eq, List.map_map]
    exact (hperm.map _).sum_eq
  refine ⟨?_, by omega, by omega⟩
  rw [foldl_counted, hputs, hcopies, hskips, handed_expected hb, hbytes]
  simp only [Nat.zero_add]

end CollectionDelta.Restoration
