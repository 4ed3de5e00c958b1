import CollectionDelta.Proofs.FileTree.Confinement

/-!
New directories, and what is found in them.

* `Rooted`: nothing stands anywhere but in a directory; `Making.rooted` says that this stays so while
  directories are made.
* `Bare`: a path that leads to a directory with nothing in it.
* `Rooted.bare_of_makeDirectoriesWithin`: the directory at the end of a path that never goes up is
  bare if anything had to be made for it.
* `isEmptyDirectory_of_made`: such a path led nowhere, and leads to an empty directory once it has
  been made.
-/

namespace CollectionDelta.FileTree

variable {t u v : FileTree} {path parent : String} {l lo : Location}

/-! ## Nothing without a directory -/

structure Rooted (t : FileTree) : Prop where
  directory_of_append : ∀ {l : Location} {x : EntryName} {n : Node},
    t.node? (l ++ [x]) = some n → t.node? l = some .directory

theorem WellFormed.rooted (h : t.WellFormed) : t.Rooted := ⟨h.directory_of_append⟩

theorem Rooted.missing_below (h : t.Rooted) (hl : t.node? l = none) (way : Location) :
    t.node? (l ++ way) = none := by
  induction way using List.reverseRecOn with
  | nil => rwa [List.append_nil]
  | append_singleton way x ih =>
    rw [← List.append_assoc]
    refine Option.eq_none_iff_forall_ne_some.2 fun n hn => ?_
    rw [h.directory_of_append hn] at ih
    cases ih

theorem Rooted.of_makeDirectory (h : t.Rooted) (hu : t.makeDirectory path = .ok u) :
    u.Rooted := by
  have hext : t.Extends u := .of_makeDirectory hu
  obtain ⟨-, ps, name, k, l, -, -, hl, -, -, rfl⟩ := makeDirectory_eq_ok_iff.1 hu
  have hne : l ++ [.text name] ≠ [] := List.append_ne_nil_of_right_ne_nil l (by simp)
  refine ⟨fun {l' x n} hn => ?_⟩
  rw [node?_set t hne] at hn
  split at hn
  · next heq =>
    obtain ⟨rfl, -⟩ := List.append_inj' heq rfl
    exact hext.node?_eq hl
  · exact hext.node?_eq (h.directory_of_append hn)

theorem Rooted.of_ensureDirectory (h : t.Rooted) (hu : t.ensureDirectory path = .ok u) :
    u.Rooted := by
  unfold ensureDirectory at hu
  split at hu
  · next w hw =>
    cases hu
    exact h.of_makeDirectory hw
  · split at hu
    · cases hu
      exact h
    · cases hu

theorem Making.rooted (h : t.Making path u) (ht : t.Rooted) : u.Rooted := by
  induction h with
  | start => exact ht
  | above _ _ _ ih => exact ih
  | last _ hv ih => exact ih.of_ensureDirectory hv

/-! ## Directories with nothing in them -/

/-- The path leads to a directory, and there is nothing in it. -/
def Bare (t : FileTree) (path : String) : Prop :=
  ∃ l, t.LeadsTo path l ∧ ∀ way, way ≠ [] → t.node? (l ++ way) = none

theorem Rooted.bare_of_ensureDirectory (h : t.Rooted) (hu : t.ensureDirectory path = .ok u) :
    u = t ∨ u.Bare path := by
  obtain ⟨-, l, hleads, hnew⟩ := leadsTo_of_ensureDirectory hu
  unfold ensureDirectory at hu
  split at hu
  · next w hw =>
    cases hu
    right
    obtain ⟨-, ps, name, k, l', -, -, -, -, hnone, rfl⟩ := makeDirectory_eq_ok_iff.1 hw
    have hne : l' ++ [.text name] ≠ [] := List.append_ne_nil_of_right_ne_nil l' (by simp)
    have hset := node?_set t hne
    -- what is new is the end of the path
    have hchanged : (t.set (l' ++ [.text name]) .directory).node? (l' ++ [.text name]) ≠
        t.node? (l' ++ [.text name]) := by
      rw [hset, if_pos rfl, hnone]
      exact nofun
    obtain ⟨rfl, -⟩ := hnew hchanged
    refine ⟨_, hleads, fun way hway => ?_⟩
    rw [hset, if_neg (by simpa using hway)]
    exact h.missing_below hnone way
  · split at hu
    · cases hu
      exact .inl rfl
    · cases hu

/-- In a bare directory there is nothing that a path could go on to. -/
theorem Bare.of_parent (h : t.Bare parent) (hparent : Path.parent? path = some parent)
    (hup : ".." ∉ Path.essential path) (hlo : t.LeadsTo path lo) : t.Bare path := by
  obtain ⟨lp, hlp, hnone⟩ := h
  obtain ⟨habsolute, p, hp⟩ := Path.essential_parent? hparent
  obtain ⟨k, hk⟩ := hlp.stem.leads
  obtain ⟨k', hk'⟩ := hlo.stem.leads
  -- from the parent the path goes one part further
  have hwalk := hk'.walk .fails
  rw [← habsolute, hp, List.map_append, hk.walk_append] at hwalk
  obtain ⟨k'', hlast⟩ := leads_of_walk hwalk
  have hne : p ≠ ".." := fun heq =>
    hup (by rw [hp, heq]; exact List.mem_append_right _ (List.mem_singleton_self ".."))
  by_cases hdot : p = "."
  · subst hdot
    cases hlast with
    | here _ hend =>
      cases hend
      exact ⟨_, hlo, hnone⟩
  · rw [List.map_singleton, Path.part, if_neg hdot, if_neg hne] at hlast
    cases hlast with
    | down _ _ hn => rw [hnone _ (by simp)] at hn; cases hn
    | link _ _ hn => rw [hnone _ (by simp)] at hn; cases hn

/-- Of a path that never goes up, either all directories were there, or the last one is new or lies
in a new one. -/
theorem Rooted.bare_of_makeDirectoriesWithin (ht : t.Rooted) (hup : ".." ∉ Path.essential path)
    {depth : Nat} (h : t.makeDirectoriesWithin path depth = (.ok (), v)) :
    v = t ∨ v.Bare path := by
  induction depth generalizing path v with
  | zero =>
    cases h
    exact .inl rfl
  | succ depth ih =>
    unfold makeDirectoriesWithin at h
    split at h
    · cases h
      exact .inl rfl
    · split at h
      · next u hu =>
        cases h
        exact ht.bare_of_ensureDirectory hu
      · next f hf =>
        split at h
        · cases h
        · split at h
          · cases h
          · next parent hparent =>
            split at h
            · cases h
            · next u hu =>
              split at h
              · next w hw =>
                cases h
                have hmaking := t.making_makeDirectoriesWithin parent depth
                rw [hu] at hmaking
                obtain ⟨-, p, hp⟩ := Path.essential_parent? hparent
                have hup' : ".." ∉ Path.essential parent := fun hmem =>
                  hup (hp ▸ List.mem_append_left [p] hmem)
                rcases ih hup' hu with rfl | hbare
                · rw [hf] at hw
                  cases hw
                · rcases (hmaking.rooted ht).bare_of_ensureDirectory hw with rfl | hbare'
                  · obtain ⟨-, lo, hlo, -⟩ := leadsTo_of_ensureDirectory hw
                    exact .inr (hbare.of_parent hparent hup hlo)
                  · exact .inr hbare'
              · cases h

theorem pathExists_of_locate {n : Node} (hl : t.locate path = .ok l) (hn : t.node? l = some n) :
    t.pathExists path = true := by
  simp only [pathExists, stat, hl, hn, bind, Except.bind, pure, Except.pure]
  rfl

theorem pathExists_of_locateDirectory (h : t.locateDirectory path = .ok l) :
    t.pathExists path = true := by
  obtain ⟨hcheck, hleads, hl⟩ := locateDirectory_eq_ok_iff.1 h
  exact pathExists_of_locate (locate_eq_ok_iff.2 ⟨hcheck, hleads, fun _ => hl⟩) hl

/-- A path that led nowhere and never goes up leads to an empty directory when it has been made. -/
theorem isEmptyDirectory_of_made (ht : t.WellFormed) (hempty : path ≠ "")
    (hup : ".." ∉ Path.essential path) (hmissing : t.pathExists path = false)
    (h : t.makeDirectories path = (.ok (), v)) : v.isEmptyDirectory path = true := by
  obtain ⟨hcheck, l, hl⟩ := leadsTo_of_makeDirectories ht h
  rcases ht.rooted.bare_of_makeDirectoriesWithin hup h with rfl | ⟨l, hl, hnone⟩
  · rw [pathExists_of_locateDirectory (hl.locateDirectory (hcheck hempty))] at hmissing
    cases hmissing
  · exact isEmptyDirectory_eq_true_iff.2
      ⟨l, hl.locateDirectory (hcheck hempty), fun {way} => hnone way⟩

end CollectionDelta.FileTree
