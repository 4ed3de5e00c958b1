import CollectionDelta.Proofs.Difference.Classification
import CollectionDelta.Proofs.Format.BuiltIn
import CollectionDelta.Proofs.Restoration.Fits
import Mathlib.Data.List.Perm.Subperm

/-!
From base to its difference, to a file, back to records and back to base.

* `restoredOrder`: the order in which base's names come back.
* `fits_expected`, `handed_expected`: a difference fits derived, and what its restoration hands on.
* `writable_expected`: a difference can be written if its names are short enough.
* `base_rebuilt`: the four stages succeed, and give base back.
-/

namespace CollectionDelta

open Difference (classified expected addedNames)
open Restoration (Fits handed presentStep absentStep recordOf?)

variable {lb ld : List String} {cb cd : String → Bytes}

/-- The names of base that derived lists come in derived's order, before the others in base's. -/
def restoredOrder (lb ld : List String) : List String :=
  (ld.eraseDups.filter fun n => n ∈ lb) ++ lb.filter fun n => n ∉ ld

theorem nodup_restoredOrder (h : lb.Nodup) (ld : List String) : (restoredOrder lb ld).Nodup := by
  rw [restoredOrder, List.nodup_append]
  refine ⟨(nodup_eraseDups ld).filter _, h.filter _, ?_⟩
  rintro n hn _ hn' rfl
  have hlisted : n ∈ ld := List.mem_eraseDups.1 (List.mem_of_mem_filter hn)
  exact of_decide_eq_true (List.mem_filter.1 hn').2 hlisted

theorem mem_restoredOrder {n : String} : n ∈ restoredOrder lb ld ↔ n ∈ lb := by
  simp only [restoredOrder, List.mem_append, List.mem_filter, List.mem_eraseDups,
    decide_eq_true_eq]
  by_cases h : n ∈ ld <;> simp [h]

theorem restoredOrder_perm (h : lb.Nodup) (ld : List String) : (restoredOrder lb ld).Perm lb :=
  (List.perm_ext_iff_of_nodup (nodup_restoredOrder h ld) h).2 fun _ => mem_restoredOrder

/-! ## The restoration -/

theorem fits_expected (h : lb.Nodup) : Fits (expected lb ld cb cd) ld where
  nodup := Difference.nodup_expected h
  listed r hr hkind := by
    have hmem := Difference.mem_expected.1 hr
    cases r with
    | added name => exact hmem.1
    | removed name bytes => exact absurd rfl hkind
    | modified name bytes => exact hmem.2.1
  unlisted r hr hkind := by
    have hmem := Difference.mem_expected.1 hr
    cases r with
    | added name => cases hkind
    | removed name bytes => exact hmem.2.1
    | modified name bytes => cases hkind

theorem handed_presentStep (h : lb.Nodup) {n : String} (hn : n ∈ ld) :
    handed cd (presentStep (expected lb ld cb cd) n) = if n ∈ lb then some (n, cb n) else none := by
  have hsome : ∀ r ∈ expected lb ld cb cd, recordOf? (expected lb ld cb cd) r.name = some r :=
    fun r hr => Restoration.recordOf?_eq_some (Difference.nodup_expected h) hr
  by_cases hb : n ∈ lb
  · by_cases heq : cb n = cd n
    · have hnone : recordOf? (expected lb ld cb cd) n = none := by
        rw [Restoration.recordOf?_eq_none, List.mem_map]
        rintro ⟨r, hr, rfl⟩
        have hmem := Difference.mem_expected.1 hr
        cases r with
        | added name => exact hmem.2 hb
        | removed name bytes => exact hmem.2.1 hn
        | modified name bytes => exact hmem.2.2.1 heq
      rw [presentStep, hnone, if_pos hb, heq]
      rfl
    · have hr : recordOf? (expected lb ld cb cd) n = some (.modified n (cb n)) :=
        hsome (.modified n (cb n)) (Difference.mem_expected.2 ⟨hb, hn, heq, rfl⟩)
      rw [presentStep, hr, if_pos hb]
      rfl
  · have hr : recordOf? (expected lb ld cb cd) n = some (.added n) :=
      hsome (.added n) (Difference.mem_expected.2 ⟨hn, hb⟩)
    rw [presentStep, hr, if_neg hb]
    rfl

/-- Of the records whose names derived does not list, each hands on a removed resource. -/
theorem handed_absentStep (ld names : List String) (cb cd : String → Bytes) :
    (((names.filterMap (classified ld cb cd)).filter fun r => !ld.contains r.name).map
      absentStep).filterMap (handed cd) =
      (names.filter fun n => n ∉ ld).map fun n => (n, cb n) := by
  induction names with
  | nil => rfl
  | cons name names ih =>
    by_cases hlisted : name ∈ ld
    · by_cases heq : cb name = cd name
      · simpa [List.filterMap_cons, classified, hlisted, heq] using ih
      · simpa [List.filterMap_cons, classified, hlisted, heq, Record.name] using ih
    · simpa [List.filterMap_cons, classified, hlisted, Record.name, absentStep, handed] using ih

theorem handed_expected (h : lb.Nodup) (ld : List String) (cb cd : String → Bytes) :
    (Restoration.steps (expected lb ld cb cd) ld).filterMap (handed cd) =
      (restoredOrder lb ld).map fun n => (n, cb n) := by
  have hpresent : (ld.eraseDups.map (presentStep (expected lb ld cb cd))).filterMap (handed cd) =
      (ld.eraseDups.filter fun n => n ∈ lb).map fun n => (n, cb n) := by
    rw [List.filterMap_map, ← List.filterMap_eq_map, List.filterMap_filter]
    refine List.filterMap_congr fun n hn => ?_
    rw [Function.comp_apply, handed_presentStep h (List.mem_eraseDups.1 hn)]
    simp
  have hadded : ((addedNames ld lb).map Record.added).filter (fun r => !ld.contains r.name) =
      [] := by
    rw [List.filter_eq_nil_iff]
    rintro _ hr
    obtain ⟨n, hn, rfl⟩ := List.mem_map.1 hr
    simpa [Record.name] using (Difference.mem_addedNames.1 hn).1
  rw [Restoration.steps, List.filterMap_append, hpresent, expected, List.filter_append, hadded,
    List.append_nil, handed_absentStep, restoredOrder, List.map_append]

/-! ## The file -/

theorem name_mem_of_expected {r : Record} (h : r ∈ expected lb ld cb cd) :
    r.name ∈ lb ∨ (r.name ∈ ld ∧ r.name ∉ lb) := by
  have hmem := Difference.mem_expected.1 h
  cases r with
  | added name => exact .inr hmem
  | removed name bytes => exact .inl hmem.1
  | modified name bytes => exact .inl hmem.1

theorem size_of_expected {r : Record} (h : r ∈ expected lb ld cb cd) :
    r.size = 0 ∨ ∃ n ∈ lb, r.size = (cb n).length := by
  have hmem := Difference.mem_expected.1 h
  cases r with
  | added name => exact .inl rfl
  | removed name bytes => exact .inr ⟨name, hmem.1, by rw [hmem.2.2]; rfl⟩
  | modified name bytes => exact .inr ⟨name, hmem.1, by rw [hmem.2.2.2]; rfl⟩

theorem length_expected_le (lb ld : List String) (cb cd : String → Bytes) :
    (expected lb ld cb cd).length ≤ lb.length + ld.length := by
  have hkept := List.length_filterMap_le (classified ld cb cd) lb
  have hsub : addedNames ld lb ⊆ ld := fun n hn => (Difference.mem_addedNames.1 hn).1
  have hnodup := (Difference.ascending_addedNames ld lb).nodup
  have hadded := (List.subperm_of_subset hnodup hsub).length_le
  rw [expected, List.length_append, List.length_map]
  omega

theorem writable_expected (hbase : ∀ n ∈ lb, (Bytes.ofText n).length ≤ maxNameLength)
    (hderived : ∀ n ∈ ld, n ∉ lb → (Bytes.ofText n).length ≤ maxNameLength)
    (hsize : ∀ n ∈ lb, (cb n).length < 2 ^ 64) (hcount : lb.length + ld.length < 2 ^ 64) :
    Writable (expected lb ld cb cd) where
  name_le r hr := by
    rcases name_mem_of_expected hr with hn | ⟨hn, hn'⟩
    · exact hbase _ hn
    · exact hderived _ hn hn'
  size_lt r hr := by
    rcases size_of_expected hr with hzero | ⟨n, hn, hlen⟩
    · rw [hzero]
      decide
    · rw [hlen]
      exact hsize n hn
  length_lt := Nat.lt_of_le_of_lt (length_expected_le lb ld cb cd) hcount

/-! ## All stages -/

variable {base derived : Collection}

/-- Base comes back from derived and the difference after the difference has been written and read,
with every name and its bytes once. -/
theorem base_rebuilt (hb : base.Faithful lb cb) (hd : derived.Faithful ld cd) (hnd : lb.Nodup)
    (hbase : ∀ n ∈ lb, (Bytes.ofText n).length ≤ maxNameLength)
    (hderived : ∀ n ∈ ld, n ∉ lb → (Bytes.ofText n).length ≤ maxNameLength)
    (hsize : ∀ n ∈ lb, (cb n).length < 2 ^ 64) (hcount : lb.length + ld.length < 2 ^ 64)
    (o : DiffOptions) (wo : WriteOptions) {ro : ReadOptions}
    (hB : ∀ p, wo.backend = some p → p.LosslessWithin (2 ^ 64)) (hro : ro.Provides wo.backend) :
    ∃ (records : List Record) (stats : WriteStats) (sink : Sink) (m : Memory),
      (Difference.generate o base derived).result = .ok records ∧
      (Encoding.ofRecords wo records).write Sink.unlimited = (.ok stats, sink) ∧
      (readRecords ro (.ofBytes sink.written)).1 = .ok records ∧
      (Restoration.toMemory derived records).result = .ok m ∧
      m.toList = (restoredOrder lb ld).map (fun n => (n, cb n)) ∧
      m.toCollection.Faithful (restoredOrder lb ld) cb ∧
      (restoredOrder lb ld).Perm lb := by
  have hw : Writable (expected lb ld cb cd) := writable_expected hbase hderived hsize hcount
  have hfits : Fits (expected lb ld cb cd) ld := fits_expected hnd
  obtain ⟨stats, sink, body, hwrite, hwritten, hbody⟩ := Encoding.write_written hB hw
  have hread := Encoding.readRecords_of_nodup hro hw.length_lt hbody
    (Difference.nodup_expected hnd)
  have hrestore := Restoration.toMemory_fits hd hfits
  rw [handed_expected hnd] at hrestore
  have horder := nodup_restoredOrder hnd ld
  refine ⟨_, stats, sink, _, Difference.generate_nodup hb hd o hnd, hwrite, ?_, hrestore, ?_,
    Memory.faithful_ofList horder cb, restoredOrder_perm hnd ld⟩
  · rw [hwritten]
    exact hread
  · refine Memory.toList_ofList ?_
    rw [List.map_map]
    exact (List.map_id _).symm ▸ horder

theorem base_rebuilt_inMemory :
    let base := Memory.ofList [("a", List.replicate 40 7), ("b", [1]), ("c", [])]
    let derived := Memory.ofList [("c", [2]), ("d", []), ("b", [1]), ("c", [2])]
    ∃ (records : List Record) (stats : WriteStats) (sink : Sink) (m : Memory),
      (Difference.generate ⟨1, .reject⟩ base.toCollection derived.toCollection).result =
        .ok records ∧
      (Encoding.ofRecords ⟨some Codec.lzma, true⟩ records).write Sink.unlimited =
        (.ok stats, sink) ∧
      (readRecords {} (.ofBytes sink.written)).1 = .ok records ∧
      (Restoration.toMemory derived.toCollection records).result = .ok m ∧
      m.toList = [("c", []), ("b", [1]), ("a", List.replicate 40 7)] := by
  intro base derived
  have hB : ∀ p, some Codec.lzma = some p → p.LosslessWithin (2 ^ 64) :=
    fun p hp => Option.some.inj hp ▸ Codec.Unlimited.lzma.losslessWithin
  have hro : ReadOptions.Provides {} (some Codec.lzma) :=
    ⟨some Codec.lzma, rfl, fun p hp => ⟨p, hp, rfl⟩⟩
  have hb : base.toCollection.Faithful ["a", "b", "c"] fun n => (base.get? n).getD [] :=
    Memory.faithful_toCollection rfl
  have hd : derived.toCollection.Faithful ["c", "d", "b", "c"]
    fun n => (derived.get? n).getD [] := Memory.faithful_toCollection rfl
  obtain ⟨records, stats, sink, m, hgenerate, hwrite, hread, hrestore, hlist, -, -⟩ :=
    base_rebuilt hb hd (by decide) (by decide) (by decide) (by decide) (by decide) ⟨1, .reject⟩
      ⟨some Codec.lzma, true⟩ hB hro
  exact ⟨records, stats, sink, m, hgenerate, hwrite, hread, hrestore, hlist.trans (by decide)⟩

/-! ## Names that no file can hold -/

theorem length_ofText_replicate (k : Nat) :
    (Bytes.ofText (String.ofList (List.replicate k 'a'))).length = k := by
  have hsize : 'a'.utf8Size = 1 := rfl
  rw [Bytes.ofText, String.toByteArray_ofList]
  simp [List.utf8Encode, hsize]

/-- The one name that an empty base does not have is the whole difference, and stops the writing if
it is too long. -/
theorem added_name_refused (name : String) (h : maxNameLength < (Bytes.ofText name).length) :
    let base := (Memory.ofList []).toCollection
    let derived := (Memory.ofList [(name, [])]).toCollection
    base.Faithful [] (fun _ => []) ∧ derived.Faithful [name] (fun _ => []) ∧
      (Difference.generate {} base derived).result = .ok [.added name] ∧
      ((Encoding.ofRecords {} [.added name]).write Sink.unlimited).1 =
        .error (.invalid (.nameTooLong (Bytes.ofText name).length)) := by
  intro base derived
  have hb : base.Faithful [] (fun _ => []) := Memory.faithful_ofList List.nodup_nil _
  have hd : derived.Faithful [name] (fun _ => []) :=
    Memory.faithful_ofList (List.pairwise_singleton _ name) fun _ => []
  refine ⟨hb, hd, ?_, ?_⟩
  · rw [Difference.generate_nodup hb hd {} List.nodup_nil]
    simp [expected, addedNames, Difference.Progress.start, List.eraseDups_cons]
  · obtain ⟨sink, hwrite, -⟩ := Encoding.write_unlimited (Encoding.ofRecords {} [.added name])
    rw [hwrite]
    simp [Encoding.ofRecords, Encoding.ofList, Encoding.ofRecord, Record.name, h]

theorem added_name_too_long :
    let name := String.ofList (List.replicate 65537 'a')
    let base := (Memory.ofList []).toCollection
    let derived := (Memory.ofList [(name, [])]).toCollection
    base.Faithful [] (fun _ => []) ∧ derived.Faithful [name] (fun _ => []) ∧
      (Difference.generate {} base derived).result = .ok [.added name] ∧
      ((Encoding.ofRecords {} [.added name]).write Sink.unlimited).1 =
        .error (.invalid (.nameTooLong 65537)) := by
  have hlong := length_ofText_replicate 65537
  have h := added_name_refused (String.ofList (List.replicate 65537 'a'))
    (by rw [hlong]; decide)
  rw [hlong] at h
  exact h

end CollectionDelta
