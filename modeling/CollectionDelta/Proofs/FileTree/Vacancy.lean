import CollectionDelta.Proofs.FileTree.Creation

/-!
Directories that are empty, or can be made.

* `Empty`: a directory below which there is nothing; `isEmptyDirectory_eq_true_iff`.
* `Vacant`: a path that leads to an empty directory as soon as it has been made; `vacant_of_missing`
  says where this can be done.
-/

namespace CollectionDelta.FileTree

variable {t u : FileTree} {root : String} {l : Location}

/-- The location is a directory below which there is nothing. -/
structure Empty (t : FileTree) (root : String) (l : Location) : Prop where
  locate : t.locateDirectory root = .ok l
  below : ∀ {way}, way ≠ [] → t.node? (l ++ way) = none

theorem isEmptyDirectory_eq_true_iff : t.isEmptyDirectory root = true ↔ ∃ l, t.Empty root l := by
  unfold isEmptyDirectory
  constructor
  · intro h
    split at h
    · next l hl =>
      refine ⟨l, hl, fun {way} hway => Option.eq_none_iff_forall_ne_some.2 fun n hn => ?_⟩
      have hmem := mem_below_of_node? hway hn
      rw [List.isEmpty_iff.1 h] at hmem
      cases hmem
    · cases h
  · rintro ⟨l, hl⟩
    rw [hl.locate, List.isEmpty_iff, List.eq_nil_iff_forall_not_mem]
    rintro ⟨way, n⟩ hmem
    obtain ⟨hway, n', hn⟩ := node?_of_mem_below hmem
    rw [hl.below hway] at hn
    cases hn

/-- The path leads to an empty directory, or nowhere until it is made into one. -/
def Vacant (t : FileTree) (root : String) : Prop :=
  t.isEmptyDirectory root = true ∨ (t.pathExists root = false ∧
    ∃ u, t.makeDirectories root = (.ok (), u) ∧ u.isEmptyDirectory root = true)

theorem makeDirectories_existing (h : t.locateDirectory root = .ok l) :
    t.makeDirectories root = (.ok (), t) := by
  have hempty := (checkPath_eq_ok_iff.1 (locateDirectory_eq_ok_iff.1 h).1).2.1
  rw [makeDirectories, makeDirectoriesWithin, if_neg hempty, ensureDirectory_existing h]

theorem Vacant.makeDirectories (h : t.Vacant root) :
    ∃ u l, t.makeDirectories root = (.ok (), u) ∧ t.Extends u ∧ u.Empty root l := by
  rcases h with h | ⟨-, u, hu, h⟩
  · obtain ⟨l, hl⟩ := isEmptyDirectory_eq_true_iff.1 h
    exact ⟨t, l, makeDirectories_existing hl.locate, .refl t, hl⟩
  · obtain ⟨l, hl⟩ := isEmptyDirectory_eq_true_iff.1 h
    exact ⟨u, l, hu, .of_makeDirectories hu, hl⟩

variable {ts : List String} {s : String}

/-- Nothing stands below an entry that is missing. -/
theorem clear_of_missing (h : t.WellFormed) (ts : List String) (hl : t.node? l = some .directory)
    (hnone : t.node? (l ++ [.text s]) = none) : t.Clear l (s :: ts) ∧
      ∀ {way}, t.node? (l ++ .ofTexts (s :: ts) ++ way) = none := by
  have hmissing : ∀ {way}, t.node? (l ++ [.text s] ++ way) = none := by
    intro way
    refine Option.eq_none_iff_forall_ne_some.2 fun n hn => ?_
    by_cases hway : way = []
    · rw [hway, List.append_nil, hnone] at hn
      cases hn
    · rw [h.directory_above hway hn] at hnone
      cases hnone
  have hcons : ∀ ps, l ++ Location.ofTexts (s :: ps) = l ++ [.text s] ++ Location.ofTexts ps :=
    fun ps => by simp [Location.ofTexts]
  constructor
  · intro ps hps
    rcases List.prefix_cons_iff.1 hps with rfl | ⟨ps, rfl, -⟩
    · left
      rwa [Location.ofTexts, List.map_nil, List.append_nil]
    · right
      rw [hcons]
      exact hmissing
  · intro way
    rw [hcons, List.append_assoc]
    exact hmissing

/-- A path is vacant if nothing but names follows where it leaves what there is. -/
theorem vacant_of_missing (h : t.WellFormed) (hroot : t.PathBelow root l (s :: ts))
    (hnone : t.node? (l ++ [.text s]) = none) : t.Vacant root := by
  obtain ⟨hclear, hmissing⟩ := clear_of_missing h ts hroot.directory hnone
  refine .inr ⟨?_, ?_⟩
  · obtain ⟨front, k, hparts, hleads⟩ := hroot.leads
    have hway : t.Way l [] := way_nil hroot.directory
    have hwalk := hway.walk_missing hleads hroot.size_le (s := s) ⟨ts, rfl⟩ hnone
    rw [← hparts] at hwalk
    simp only [pathExists, stat, locate, hroot.check, hwalk, bind, Except.bind]
    rfl
  · obtain ⟨ts', s', hlast⟩ : ∃ ts' s', s :: ts = ts' ++ [s'] :=
      ⟨_, _, (List.dropLast_concat_getLast (List.cons_ne_nil s ts)).symm⟩
    rw [hlast] at hroot hclear hmissing
    obtain ⟨u, hu, hmade⟩ := hroot.makeDirectories hclear
    refine ⟨u, hu, isEmptyDirectory_eq_true_iff.2 ⟨l ++ .ofTexts (ts' ++ [s']), ?_, ?_⟩⟩
    · have hext : t.Extends u := .of_makeDirectories hu
      exact (hroot.extend hext).locateDirectory (hmade.way hroot.directory)
    · intro way hway
      rw [hmade.kept, hmissing]
      intro ps _ hps heq
      have hlen := hps.length_le
      have hpos := List.length_pos_iff.2 hway
      rw [List.append_assoc] at heq
      have heq := congrArg List.length (List.append_cancel_left heq)
      simp only [Location.ofTexts, List.length_append, List.length_map] at heq hlen
      omega

end CollectionDelta.FileTree
