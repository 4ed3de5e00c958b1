import CollectionDelta.Proofs.Difference.Classification
import CollectionDelta.Proofs.Restoration.Acceptance
import Mathlib.Data.List.Nodup

/-!
What was restored, compared with derived again.

* `Restored`: which bytes a restoration gives back under which name; `mem_entries` says that it
  hands on just these.
* `mem_expected_restored`: the records of the difference of what was restored and derived.
* `difference_of_restored`: the difference that was restored comes back, but for the modified
  records that modify nothing.
-/

namespace CollectionDelta.Restoration

variable {listing : List String} {content : String → Bytes} {records : List Record}
  {kept : List (String × Bytes)}

/-! ## What was handed on -/

theorem Kept.mem_iff (hnd : (records.map Record.name).Nodup) {names : List String}
    {entries : List (String × Bytes)} (h : Kept records content names entries) {n : String}
    {b : Bytes} : (n, b) ∈ entries ↔ n ∈ names ∧
      ((n ∉ records.map Record.name ∧ b = content n) ∨ .modified n b ∈ records) := by
  induction h with
  | nil => simp
  | @copied name names entries hname _ ih =>
    rw [List.mem_cons, List.mem_cons, ih]
    constructor
    · rintro (heq | ⟨hn, hb⟩)
      · cases heq
        exact ⟨.inl rfl, .inl ⟨hname, rfl⟩⟩
      · exact ⟨.inr hn, hb⟩
    · rintro ⟨rfl | hn, hb⟩
      · rcases hb with ⟨-, rfl⟩ | hb
        · exact .inl rfl
        · exact absurd (List.mem_map_of_mem hb) hname
      · exact .inr ⟨hn, hb⟩
  | @modified name bytes names entries hr _ ih =>
    rw [List.mem_cons, List.mem_cons, ih]
    constructor
    · rintro (heq | ⟨hn, hb⟩)
      · cases heq
        exact ⟨.inl rfl, .inr hr⟩
      · exact ⟨.inr hn, hb⟩
    · rintro ⟨rfl | hn, hb⟩
      · rcases hb with ⟨hname, -⟩ | hb
        · exact absurd (List.mem_map_of_mem hr) hname
        · cases eq_of_name_eq hnd hr hb rfl
          exact .inl rfl
      · exact .inr ⟨hn, hb⟩
  | @added name names entries hr _ ih =>
    rw [List.mem_cons, ih]
    constructor
    · rintro ⟨hn, hb⟩
      exact ⟨.inr hn, hb⟩
    · rintro ⟨rfl | hn, hb⟩
      · rcases hb with ⟨hname, -⟩ | hb
        · exact absurd (List.mem_map_of_mem hr) hname
        · cases eq_of_name_eq hnd hr hb rfl
      · exact ⟨hn, hb⟩

theorem mem_removedEntries {n : String} {b : Bytes} :
    (n, b) ∈ removedEntries records ↔ .removed n b ∈ records := by
  rw [removedEntries, List.mem_filterMap]
  constructor
  · rintro ⟨r, hr, heq⟩
    cases r with
    | removed name bytes => cases heq; exact hr
    | added name => cases heq
    | modified name bytes => cases heq
  · intro h
    exact ⟨_, h, rfl⟩

/-- The bytes `b` come back under the name `n`: from derived, if no record has the name, or else
from the record that has. -/
inductive Restored (records : List Record) (listing : List String) (content : String → Bytes)
    (n : String) (b : Bytes) : Prop
  | copied (hlisted : n ∈ listing) (hname : n ∉ records.map Record.name) (hb : b = content n)
  | modified (hr : .modified n b ∈ records)
  | removed (hr : .removed n b ∈ records)

theorem mem_entries (h : Fits records listing)
    (hkept : Kept records content listing.eraseDups kept) {n : String} {b : Bytes} :
    (n, b) ∈ kept ++ removedEntries records ↔ Restored records listing content n b := by
  rw [List.mem_append, hkept.mem_iff h.nodup, mem_removedEntries, List.mem_eraseDups]
  constructor
  · rintro (⟨hn, ⟨hname, hb⟩ | hr⟩ | hr)
    · exact .copied hn hname hb
    · exact .modified hr
    · exact .removed hr
  · intro hrestored
    cases hrestored with
    | copied hn hname hb => exact .inl ⟨hn, .inl ⟨hname, hb⟩⟩
    | modified hr => exact .inl ⟨h.listed _ hr (by simp [Record.kind]), .inr hr⟩
    | removed hr => exact .inr hr

theorem toMemory_of_not_fits {derived : Collection} (hd : derived.Faithful listing content)
    (h : ¬ Fits records listing) :
    ∃ name mismatch, (toMemory derived records).result = .error (.inconsistent name mismatch) := by
  have ht : Takes inMemory fun m e => m.push e.1 e.2 := fun s name bytes => rfl
  obtain ⟨name, mismatch, herror⟩ := result_rebuild_of_not_fits (fun _ => hd) ht h {}
  rw [← result_restore fun _ => hd.close_eq] at herror
  exact ⟨name, mismatch, by simp [toMemory, herror, Except.map]⟩

theorem fits_of_toMemory {derived : Collection} (hd : derived.Faithful listing content) {m : Memory}
    (h : (toMemory derived records).result = .ok m) : Fits records listing := by
  refine Classical.byContradiction fun hunfit => ?_
  obtain ⟨name, mismatch, herror⟩ := toMemory_of_not_fits hd hunfit
  rw [h] at herror
  cases herror

/-! ## The difference of what was restored -/

variable {lb : List String} {cb : String → Bytes}

theorem mem_expected_restored (h : Fits records listing)
    (hbase : ∀ n b, n ∈ lb ∧ b = cb n ↔ Restored records listing content n b) (r : Record) :
    r ∈ Difference.expected lb listing cb content ↔
      r ∈ records ∧ r ≠ .modified r.name (content r.name) := by
  rw [Difference.mem_expected]
  cases r with
  | added n =>
    constructor
    · rintro ⟨hlisted, hn⟩
      refine ⟨?_, by simp⟩
      have hname : n ∈ records.map Record.name := by
        refine Classical.byContradiction fun hname => hn ?_
        exact ((hbase n (content n)).2 (.copied hlisted hname rfl)).1
      obtain ⟨r, hr, rfl⟩ := List.mem_map.1 hname
      cases r with
      | added name => exact hr
      | modified name bytes => exact absurd ((hbase name bytes).2 (.modified hr)).1 hn
      | removed name bytes => exact absurd hlisted (h.unlisted _ hr rfl)
    · rintro ⟨hr, -⟩
      refine ⟨h.listed _ hr (by simp [Record.kind]), fun hn => ?_⟩
      cases (hbase n (cb n)).1 ⟨hn, rfl⟩ with
      | copied _ hname => exact hname (List.mem_map_of_mem (f := Record.name) hr)
      | modified hr' => cases eq_of_name_eq h.nodup hr hr' rfl
      | removed hr' => cases eq_of_name_eq h.nodup hr hr' rfl
  | removed n b =>
    constructor
    · rintro ⟨hn, hunlisted, hb⟩
      refine ⟨?_, by simp⟩
      cases (hbase n b).1 ⟨hn, hb⟩ with
      | copied hlisted => exact absurd hlisted hunlisted
      | modified hr => exact absurd (h.listed _ hr (by simp [Record.kind])) hunlisted
      | removed hr => exact hr
    · rintro ⟨hr, -⟩
      obtain ⟨hn, hb⟩ := (hbase n b).2 (.removed hr)
      exact ⟨hn, h.unlisted _ hr rfl, hb⟩
  | modified n b =>
    constructor
    · rintro ⟨hn, hlisted, hne, rfl⟩
      refine ⟨?_, fun heq => hne (Record.modified.inj heq).2⟩
      cases (hbase n (cb n)).1 ⟨hn, rfl⟩ with
      | copied _ _ heq => exact absurd heq hne
      | modified hr => exact hr
      | removed hr => exact absurd hlisted (h.unlisted _ hr rfl)
    · rintro ⟨hr, hne⟩
      obtain ⟨hn, rfl⟩ := (hbase n b).2 (.modified hr)
      refine ⟨hn, h.listed _ hr (by simp [Record.kind]), fun heq => hne ?_, rfl⟩
      rw [Record.name, heq]

/-- A difference that was restored comes back from what was restored and another copy of derived,
each of its records once, but for those that keep derived's own bytes as a modification. -/
theorem difference_of_restored {derived copy : Collection}
    (hd : derived.Faithful listing content) (hcopy : copy.Faithful listing content) {m : Memory}
    (h : (toMemory derived records).result = .ok m) (chunk : Nat) :
    ∃ again, (Difference.generate ⟨chunk, .reject⟩ m.toCollection copy).result = .ok again ∧
      (again.map Record.name).Nodup ∧
      ∀ r, r ∈ again ↔ r ∈ records ∧ r ≠ .modified r.name (content r.name) := by
  have hfits := fits_of_toMemory hd h
  obtain ⟨kept, hkept, hentries⟩ := handed_steps hfits content
  have hnd := nodup_handed hfits hkept
  rw [toMemory_fits hd hfits, hentries] at h
  cases h
  have hm := Memory.faithful_toCollection (Memory.pushes_ofList (kept ++ removedEntries records)).2
  have hnames := Memory.names_ofList (kept ++ removedEntries records)
  have hbase : (Memory.ofList (kept ++ removedEntries records)).names.Nodup := hnames ▸ hnd
  refine ⟨_, Difference.generate_nodup hm hcopy ⟨chunk, .reject⟩ hbase,
    Difference.nodup_expected hbase, mem_expected_restored hfits fun n b => ?_⟩
  rw [← mem_entries hfits hkept, hnames]
  constructor
  · rintro ⟨hn, rfl⟩
    obtain ⟨⟨n, b⟩, he, rfl⟩ := List.mem_map.1 hn
    rw [Memory.get?_ofList hnd he]
    exact he
  · intro he
    exact ⟨List.mem_map_of_mem (f := Prod.fst) he, by rw [Memory.get?_ofList hnd he]; rfl⟩

/-- A record of each kind, and one that modifies nothing. -/
theorem difference_of_restored_each_kind :
    let derived := Memory.ofList [("edit", [2]), ("same", [5]), ("extra", []), ("edit", [2])]
    let records := [.modified "edit" [7, 7], .modified "same" [5], .removed "gone" [8],
      .added "extra"]
    ∃ m again, (toMemory derived.toCollection records).result = .ok m ∧
      (Difference.generate ⟨1, .reject⟩ m.toCollection derived.toCollection).result = .ok again ∧
      again.Perm [.modified "edit" [7, 7], .removed "gone" [8], .added "extra"] := by
  intro derived records
  have hd : derived.toCollection.Faithful ["edit", "same", "extra", "edit"]
      fun n => (derived.get? n).getD [] := Memory.faithful_toCollection rfl
  have hfits : Fits records ["edit", "same", "extra", "edit"] :=
    ⟨by decide, by decide, by decide⟩
  have hrestored := toMemory_fits hd hfits
  obtain ⟨again, hgenerate, hnd, hmem⟩ := difference_of_restored hd hd hrestored 1
  refine ⟨_, again, hrestored, hgenerate, ?_⟩
  rw [List.perm_ext_iff_of_nodup (List.Nodup.of_map _ hnd) (by decide)]
  intro r
  have hfilter : [.modified "edit" [7, 7], .removed "gone" [8], .added "extra"] = records.filter
      fun r => r ≠ .modified r.name ((derived.get? r.name).getD []) := by decide
  rw [hfilter, List.mem_filter, hmem, decide_eq_true_iff]

end CollectionDelta.Restoration
