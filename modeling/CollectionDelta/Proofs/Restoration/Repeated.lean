import CollectionDelta.Proofs.Format.Outline
import CollectionDelta.Proofs.Restoration.Compared
import CollectionDelta.Proofs.RoundTrip

/-!
Base names that come again, where the first occurrence counts.

* `Difference.firstWins`: the records of such a difference; every occurrence after the first is a
  removed one.
* `not_fits_firstWins`: with a repeated name they fit no derived collection, in one of two ways.
* `fits_of_labels`: whether records fit is a matter of their kinds and names.
* `firstWins_restored_iff`: the difference is restored if and only if base repeats no name, and a
  file in between does not help.
-/

namespace CollectionDelta

namespace Difference

/-- The record of each occurrence of a base name, and those of the names that only derived lists. -/
def firstWins (lb ld : List String) (cb cd : String → Bytes) : List Record :=
  (lb.zipIdx.filterMap fun x => classifiedAt ld cb cd (lb.take x.2) x.1) ++
    (addedNames ld lb).map .added

variable {lb ld : List String} {cb cd : String → Bytes} {name : String}

theorem classifiedAt_of_mem {before : List String} (h : name ∈ before) :
    classifiedAt ld cb cd before name = some (.removed name (cb name)) := if_pos h

theorem classifiedAt_unlisted (before : List String) (h : name ∉ ld) :
    classifiedAt ld cb cd before name = some (.removed name (cb name)) := by
  rw [classifiedAt, classified, if_pos h]
  split <;> rfl

/-- A name that comes again is removed, and if derived does not list it, so is its first occurrence:
two records of one name. -/
theorem firstWins_repeated (h : FirstRepeat lb name) :
    .removed name (cb name) ∈ firstWins lb ld cb cd ∧
      (name ∉ ld → ¬ ((firstWins lb ld cb cd).map Record.name).Nodup) := by
  obtain ⟨before, after, rfl, -, hmem⟩ := h
  have hagain : .removed name (cb name) ∈
      ((name :: after).zipIdx before.length).filterMap fun x =>
        classifiedAt ld cb cd ((before ++ name :: after).take x.2) x.1 := by
    refine List.mem_filterMap.2 ⟨(name, before.length), by simp, ?_⟩
    rw [List.take_left]
    exact classifiedAt_of_mem hmem
  rw [firstWins, List.zipIdx_append, List.filterMap_append, Nat.zero_add]
  refine ⟨List.mem_append_left _ (List.mem_append_right _ hagain), fun hunlisted hnd => ?_⟩
  obtain ⟨i, hi⟩ := List.mem_iff_getElem?.1 hmem
  have hfirst : .removed name (cb name) ∈ before.zipIdx.filterMap fun x =>
      classifiedAt ld cb cd ((before ++ name :: after).take x.2) x.1 :=
    List.mem_filterMap.2 ⟨(name, i), List.mem_zipIdx_iff_getElem?.2 hi,
      classifiedAt_unlisted _ hunlisted⟩
  rw [List.map_append, List.map_append, List.nodup_append, List.nodup_append] at hnd
  exact hnd.1.2.2 name (List.mem_map_of_mem (f := Record.name) hfirst) name
    (List.mem_map_of_mem (f := Record.name) hagain) rfl

end Difference

namespace Restoration

open Difference (firstWins)

variable {listing lb ld : List String} {cb cd : String → Bytes} {records records' : List Record}

/-- The repeated name is removed although derived lists it, or it has two records. -/
theorem not_fits_firstWins (h : ¬ lb.Nodup) : ¬ Fits (firstWins lb ld cb cd) ld := by
  obtain ⟨name, hname⟩ := (nodup_or_firstRepeat lb).resolve_left h
  obtain ⟨hmem, hrepeated⟩ : .removed name (cb name) ∈ firstWins lb ld cb cd ∧
      (name ∉ ld → ¬ ((firstWins lb ld cb cd).map Record.name).Nodup) :=
    Difference.firstWins_repeated hname
  intro hfits
  exact hrepeated (hfits.unlisted _ hmem rfl) hfits.nodup

theorem fits_of_labels (hlabels : records'.map Record.label = records.map Record.label)
    (h : Fits records' listing) : Fits records listing := by
  have hpair : ∀ r ∈ records, ∃ r' ∈ records', r'.kind = r.kind ∧ r'.name = r.name := by
    intro r hr
    have hlabel : r.label ∈ records'.map Record.label := hlabels ▸ List.mem_map_of_mem hr
    obtain ⟨r', hr', heq⟩ := List.mem_map.1 hlabel
    exact ⟨r', hr', Record.label_eq_iff.1 heq⟩
  have hnames : records'.map Record.name = records.map Record.name := by
    have hbytes := congrArg (List.map Prod.snd) hlabels
    rw [List.map_map, List.map_map] at hbytes
    refine List.map_injective_iff.2 (fun _ _ => Bytes.ofText_injective) ?_
    rwa [List.map_map, List.map_map]
  refine ⟨hnames ▸ h.nodup, fun r hr hkind => ?_, fun r hr hkind => ?_⟩
  · obtain ⟨r', hr', hk, hn⟩ := hpair r hr
    exact hn ▸ h.listed r' hr' (hk ▸ hkind)
  · obtain ⟨r', hr', hk, hn⟩ := hpair r hr
    exact hn ▸ h.unlisted r' hr' (hk ▸ hkind)

/-- The difference that counts the first occurrence of a repeated base name is restored if and only
if no name is repeated. Else the restoration says what is inconsistent, and so it does of whatever
is read of a file that the difference was written to. -/
theorem firstWins_restored_iff {base derived : Collection} (hb : base.Faithful lb cb)
    (hd : derived.Faithful ld cd) (chunk : Nat) :
    ∃ records, (Difference.generate ⟨chunk, .firstWins⟩ base derived).result = .ok records ∧
      ((∃ m, (toMemory derived records).result = .ok m) ↔ lb.Nodup) ∧
      (¬ lb.Nodup →
        (∃ name mismatch,
          (toMemory derived records).result = .error (.inconsistent name mismatch)) ∧
        ∀ (wo : WriteOptions) (ro : ReadOptions) (stats : WriteStats) (sink : Sink)
          (read : List Record),
          (Encoding.ofRecords wo records).write Sink.unlimited = (.ok stats, sink) →
          (readRecords ro (.ofBytes sink.written)).1 = .ok read →
          ∃ name mismatch,
            (toMemory derived read).result = .error (.inconsistent name mismatch)) := by
  have hgenerate := Difference.generate_firstWins hb hd chunk
  refine ⟨_, hgenerate, ⟨?_, fun hnd => ?_⟩, fun hrepeated => ⟨?_, ?_⟩⟩
  · rintro ⟨m, hm⟩
    refine Classical.byContradiction fun hrepeated => ?_
    exact not_fits_firstWins hrepeated (fits_of_toMemory hd hm)
  · rw [Difference.generate_nodup hb hd ⟨chunk, .firstWins⟩ hnd] at hgenerate
    rw [← Except.ok.inj hgenerate]
    exact ⟨_, toMemory_fits hd (fits_expected hnd)⟩
  · exact toMemory_of_not_fits hd (not_fits_firstWins hrepeated)
  · intro wo ro stats sink read hwrite hread
    have hlabels := labels_of_written hwrite hread
    exact toMemory_of_not_fits hd fun hfits =>
      not_fits_firstWins hrepeated (fits_of_labels hlabels hfits)

/-- One name that derived has as well, and one that it does not: the second `a` alone has a record,
and both `b` have one. -/
theorem firstWins_refused_inMemory :
    let base := Memory.ofList [("a", [1]), ("b", [2]), ("a", [1]), ("b", [3])]
    let derived := Memory.ofList [("a", [1])]
    let records := [.removed "b" [3], .removed "a" [1], .removed "b" [3]]
    (Difference.generate ⟨1, .firstWins⟩ base.toCollection derived.toCollection).result =
        .ok records ∧
      (¬ ∃ m, (toMemory derived.toCollection records).result = .ok m) ∧
      ∃ name mismatch,
        (toMemory derived.toCollection records).result = .error (.inconsistent name mismatch) := by
  intro base derived records
  have hb : base.toCollection.Faithful ["a", "b", "a", "b"] fun n => (base.get? n).getD [] :=
    Memory.faithful_toCollection rfl
  have hd : derived.toCollection.Faithful ["a"] fun n => (derived.get? n).getD [] :=
    Memory.faithful_toCollection rfl
  obtain ⟨found, hgenerate, hiff, hrefused⟩ := firstWins_restored_iff hb hd 1
  have hrecords : found = records := by
    have hfirst := Difference.generate_firstWins hb hd 1
    rw [hgenerate] at hfirst
    rw [Except.ok.inj hfirst]
    decide +kernel
  rw [hrecords] at hgenerate hiff hrefused
  have hrepeated : ¬ ["a", "b", "a", "b"].Nodup := by decide
  exact ⟨hgenerate, fun hm => hrepeated (hiff.1 hm), (hrefused hrepeated).1⟩

end Restoration
end CollectionDelta
