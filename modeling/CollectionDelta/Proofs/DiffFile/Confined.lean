import CollectionDelta.DiffFile
import CollectionDelta.Proofs.Directory
import CollectionDelta.Proofs.FileTree.Confinement
import CollectionDelta.Proofs.Restoration.State

/-!
What a diff file can make a restoration do.

* `FileTree.Settled`: a directory without links below it, as the output of a restoration is.
* `Settled.placeBelow_cases`: placing a file of any name changes nothing outside the directory.
* `DiffFile.restore_confined`: whatever the diff file holds, and however the restoration ends, only
  the directory, those above it and what is below it can be new or changed.
-/

namespace CollectionDelta

open FileTree (checkPath maxLinks ChangedBelow)

theorem FileTree.checkPath_of_sublist {path p : String} (h : checkPath path = .ok ())
    (hsub : p.toList.Sublist path.toList) (hempty : p ≠ "") : checkPath p = .ok () := by
  obtain ⟨hnul, -, hsize⟩ := checkPath_eq_ok_iff.1 h
  exact checkPath_eq_ok_iff.2 ⟨fun hmem => hnul (hsub.subset hmem), hempty,
    Nat.le_trans (Path.size_le_of_sublist hsub) hsize⟩

/-! ## Placing a file -/

/-- The path leads to a directory, and there is no link below it. -/
structure FileTree.Settled (t : FileTree) (root : String) (l : Location) : Prop where
  check : root ≠ "" → checkPath root = .ok ()
  leads : t.LeadsTo root l
  linkFree : t.LinkFree l

namespace FileTree.Settled

variable {t u : FileTree} {root name : String} {l : Location}

theorem of_changedBelow (h : t.Settled root l) (hu : ChangedBelow l t u) : u.Settled root l :=
  ⟨h.check, h.leads.of_changedBelow hu, h.linkFree.of_changedBelow hu⟩

/-- The directories on the way to a file are made below the root. -/
theorem changedBelow_makeDirectories (h : t.Settled root l) (hname : Path.PlainName name) :
    ChangedBelow l t
      (t.makeDirectories ((Path.parent? (Path.join root name)).getD "")).2 := by
  rw [Path.parent?_join_name root hname, Option.getD_some]
  refine (making_makeDirectoriesWithin _ _ _).changedBelow rfl h.leads.stem h.linkFree
    (fun hempty => ?_) fun p hp => hname p ((List.dropLast_sublist _).subset hp)
  have hsub := Path.ofParts_sublist (List.Sublist.refl (Path.essential root))
  refine checkPath_of_sublist (h.check fun hroot => hempty ?_) hsub hempty
  rw [hroot]
  rfl

/-- A file comes to lie where its name says. -/
theorem destination_eq (h : t.Settled root l) (hname : Path.PlainName name) {l' : Location}
    (hl' : t.destination (Path.join root name) = .ok l') :
    l' = l ++ .ofName name ∧ t.node? l' ≠ some .directory := by
  obtain ⟨-, -, hwalk, hdir⟩ := destination_eq_ok hl'
  obtain ⟨k, hk⟩ := h.leads.leads
  rw [startOf, Path.isAbsolute_join_name root hname, Path.parts_join, hname.parts_eq] at hwalk
  have hrest := (hk.walk_append .allowed ((Path.split name).map .down)).symm.trans hwalk
  exact ⟨h.linkFree.walk_names hrest, hdir⟩

/-- Placing a file makes directories below the root, and then, unless it fails, the file. -/
theorem placeBelow_cases (h : t.Settled root l) (name : String) (bytes : Bytes) :
    ∃ u, t.Extends u ∧ ChangedBelow l t u ∧
      ((∃ f, DiffFile.placeBelow root t name bytes = (.error f, u)) ∨
        u.node? (l ++ .ofName name) ≠ some .directory ∧
        DiffFile.placeBelow root t name bytes =
          (.ok (), u.set (l ++ .ofName name) (.file bytes))) := by
  unfold DiffFile.placeBelow
  cases hpath : ResourceName.path root name with
  | error f => exact ⟨t, .refl t, .refl l t, .inl ⟨f, rfl⟩⟩
  | ok path =>
    obtain ⟨hname, rfl⟩ := ResourceName.path_eq_ok hpath
    have hchanged := h.changedBelow_makeDirectories hname
    dsimp only
    cases hu : t.makeDirectories ((Path.parent? (Path.join root name)).getD "") with
    | mk result u =>
      rw [hu] at hchanged
      refine ⟨u, .of_makeDirectories hu, hchanged, ?_⟩
      cases result with
      | error f => exact .inl ⟨f, rfl⟩
      | ok _ =>
        cases hl' : u.destination (Path.join root name) with
        | error f => exact .inl ⟨f, by simp only [writeFile, hl', bind, Except.bind]⟩
        | ok l' =>
          obtain ⟨rfl, hdir⟩ := (h.of_changedBelow hchanged).destination_eq hname hl'
          exact .inr ⟨hdir, by simp only [writeFile, hl', bind, Except.bind, pure, Except.pure]⟩

theorem changedBelow_placeBelow (h : t.Settled root l) (name : String) (bytes : Bytes) :
    ChangedBelow l t (DiffFile.placeBelow root t name bytes).2 := by
  obtain ⟨u, -, hu, ⟨f, hplace⟩ | ⟨hdir, hplace⟩⟩ := h.placeBelow_cases name bytes
  · rw [hplace]
    exact hu
  · rw [hplace]
    exact hu.trans (changedBelow_set_file (Location.ofName_ne_nil name) hdir
      (h.linkFree.of_changedBelow hu) bytes)

end FileTree.Settled

/-! ## Restoring a directory -/

/-- Once the directory has been made, there is no link below it. -/
def FileTree.Unlinked (t : FileTree) (out : String) : Prop :=
  ∀ v lo, t.makeDirectories out = (.ok (), v) → v.LeadsTo out lo → v.LinkFree lo

variable {t u : FileTree} {derived diff out : String}

theorem FileTree.vacant_of_made (hmissing : t.pathExists out = false)
    (hmade : (t.makeDirectories out).1 = .ok ())
    (hempty : (t.makeDirectories out).2.isEmptyDirectory out = true) : t.Vacant out :=
  .inr ⟨hmissing, _, Prod.ext hmade rfl, hempty⟩

theorem FileTree.Vacant.unlinked (h : t.Vacant out) : t.Unlinked out := by
  intro v lo hv hlo
  obtain ⟨u, l, hu, -, hempty⟩ := h.makeDirectories
  obtain ⟨-, rfl⟩ := Prod.mk.inj (hv.symm.trans hu)
  rw [hlo.unique (leadsTo_of_locateDirectory hempty.locate)]
  exact hempty.linkFree

/-- In a tree without links, there are none below a directory that is made either. -/
theorem FileTree.LinkFree.unlinked (h : t.LinkFree []) (out : String) : t.Unlinked out := by
  rintro v lo hv - way target hlink
  have hmaking := t.making_makeDirectoriesWithin out (out.length + 1)
  rw [← makeDirectories, hv] at hmaking
  by_cases heq : v.node? (lo ++ way) = t.node? (lo ++ way)
  · exact h (lo ++ way) target (heq ▸ hlink)
  · obtain ⟨-, p, -, hleads⟩ := hmaking.new heq
    rw [hleads.directory] at hlink
    cases hlink

theorem FileTree.Unlinked.settled (h : t.Unlinked out) (ht : t.WellFormed)
    (hu : t.makeDirectories out = (.ok (), u)) : ∃ lo, u.Settled out lo := by
  obtain ⟨hcheck, lo, hlo⟩ := leadsTo_of_makeDirectories ht hu
  exact ⟨lo, hcheck, hlo, h u lo hu hlo⟩

namespace DiffFile

theorem exists_ok_of_not_error {ε α : Type} {r : Except ε α} (h : ¬ ∃ e, r = .error e) :
    ∃ a, r = .ok a := by
  cases r with
  | error e => exact absurd ⟨e, rfl⟩ h
  | ok a => exact ⟨a, rfl⟩

/-- Wherever a restoration into a settled directory ends, only what is below has changed. -/
theorem changedBelow_restore {lo : Location} (h : u.Settled out lo)
    (derived : FileTree → Collection) (records : List Record) :
    ChangedBelow lo u (Restoration.restore derived (placeBelow out) records u).state := by
  refine Restoration.state_restore_of_place (I := ChangedBelow lo u) (fun s name bytes hs => ?_)
    records (.refl lo u)
  exact hs.trans ((h.of_changedBelow hs).changedBelow_placeBelow name bytes)

/-- Before the diff file has been read and derived has been opened, nothing is made. -/
theorem tree_restore_of_refused (h : (∃ e, read t diff true = .error e) ∨
    ∃ f, (Directory.openAt t derived).result = .error f) :
    (restore t derived diff out).tree = t := by
  cases hread : read t diff true with
  | error e => simp only [restore, hread]
  | ok records =>
    rcases h with ⟨e, he⟩ | ⟨f, hf⟩
    · rw [hread] at he
      cases he
    · simp only [restore, hread, hf]

/-- Whatever a diff file holds, whatever derived is and however a restoration ends: what is new or
changed is below the output directory, or is that directory or one of those above it that were
missing. Nothing is new or changed if the diff file cannot be read or derived cannot be opened. -/
theorem restore_confined (ht : t.WellFormed) (hout : t.Unlinked out) (derived diff : String) :
    let u := (restore t derived diff out).tree
    (∀ l, u.node? l ≠ t.node? l →
      (∃ lo way, u.LeadsTo out lo ∧ way ≠ [] ∧ l = lo ++ way) ∨
        t.node? l = none ∧ ∃ p, Path.Ancestor p out ∧ u.LeadsTo p l) ∧
      u.current = t.current ∧
      ((∃ e, read t diff true = .error e) ∨
        (∃ f, (Directory.openAt t derived).result = .error f) → u = t) := by
  intro u
  rw [← and_assoc]
  refine ⟨?_, tree_restore_of_refused⟩
  by_cases hrefused : (∃ e, read t diff true = .error e) ∨
      ∃ f, (Directory.openAt t derived).result = .error f
  · have hu : u = t := tree_restore_of_refused hrefused
    rw [hu]
    exact ⟨fun l hl => absurd rfl hl, rfl⟩
  · rw [not_or] at hrefused
    obtain ⟨records, hread⟩ := exists_ok_of_not_error hrefused.1
    obtain ⟨d, hopen⟩ := exists_ok_of_not_error hrefused.2
    have hmaking := t.making_makeDirectoriesWithin out (out.length + 1)
    rw [← FileTree.makeDirectories] at hmaking
    cases hv : t.makeDirectories out with
    | mk result v =>
      rw [hv] at hmaking
      cases result with
      | error f =>
        have hu : u = v := by simp only [u, restore, hread, hopen, hv]
        rw [hu]
        exact ⟨fun l hl => .inr (hmaking.new hl), hmaking.extends.current_eq⟩
      | ok _ =>
        have hu : u = (Restoration.restore (fun s => d.toCollection s) (placeBelow out) records
            v).state := by simp only [u, restore, hread, hopen, hv]
        obtain ⟨lo, hsettled⟩ := hout.settled ht hv
        have hchanged := changedBelow_restore hsettled (fun s => d.toCollection s) records
        rw [← hu] at hchanged
        refine ⟨fun l hl => ?_, hchanged.current_eq.trans hmaking.extends.current_eq⟩
        by_cases heq : u.node? l = v.node? l
        · obtain ⟨hnone, p, hp, hleads⟩ := hmaking.new (heq ▸ hl)
          exact .inr ⟨hnone, p, hp, hleads.of_changedBelow hchanged⟩
        · obtain ⟨way, hway, rfl⟩ := hchanged.within heq
          exact .inl ⟨lo, way, hsettled.leads.of_changedBelow hchanged, hway, rfl⟩

/-- A diff file with a name below the root and one that would climb out of it; the run fails at the
second one. -/
theorem restore_confined_climbing_name :
    let t : FileTree := { entries := [([.text "derived"], .directory),
      ([.text "d"], .file [0x52, 0x53, 0x44, 0x46, 0x01, 0x00, 0x02, 0x01, 0x03, 0x61, 0x2F, 0x62,
        0x00, 0x01, 0x01, 0x31, 0x01, 0x04, 0x2E, 0x2E, 0x2F, 0x65, 0x00, 0x01, 0x01, 0x32])] }
    let run := restore t "derived" "d" "new/out"
    run.result = .error (.delta (.sink "../e" (ResourceName.invalid "../e"))) ∧
      run.tree.node? [.text "new", .text "out", .text "a", .text "b"] = some (.file [0x31]) ∧
      ∀ l, run.tree.node? l ≠ t.node? l →
        (∃ lo way, run.tree.LeadsTo "new/out" lo ∧ way ≠ [] ∧ l = lo ++ way) ∨
          t.node? l = none ∧ ∃ p, Path.Ancestor p "new/out" ∧ run.tree.LeadsTo p l := by
  intro t run
  have ht : t.WellFormed := by decide +kernel
  have hvacant : t.Vacant "new/out" :=
    FileTree.vacant_of_made (by decide +kernel) (by decide +kernel) (by decide +kernel)
  exact ⟨by decide +kernel, by decide +kernel,
    (restore_confined ht hvacant.unlinked "derived" "d").1⟩

/-- A path can lead nowhere and, as soon as a directory on it is made, to a directory with a link in
it, through which a file elsewhere is overwritten. -/
theorem restore_not_confined_by_links :
    let t : FileTree := { entries := [([.text "derived"], .directory), ([.text "out"], .directory),
      ([.text "out", .text "l"], .link "../other"), ([.text "other"], .directory),
      ([.text "other", .text "f"], .file [0x31]),
      ([.text "d"], .file [0x52, 0x53, 0x44, 0x46, 0x01, 0x00, 0x01, 0x01, 0x03, 0x6C, 0x2F, 0x66,
        0x00, 0x01, 0x01, 0x32])] }
    let u := (restore t "derived" "d" "new/../out").tree
    t.WellFormed ∧ t.pathExists "new/../out" = false ∧
      u.locateDirectory "new/../out" = .ok [.text "out"] ∧
      t.node? [.text "other", .text "f"] = some (.file [0x31]) ∧
      u.node? [.text "other", .text "f"] = some (.file [0x32]) := by
  decide +kernel

end DiffFile
end CollectionDelta
