import CollectionDelta.DiffFile
import CollectionDelta.Proofs.Directory
import CollectionDelta.Proofs.FileTree.Vacancy

/-!
Files placed below an empty directory.

* `planted`: what stands below a directory in which some files have been placed, and nothing else.
* `Apart`: names of which none is above another one, as those of the files of a directory are.
* `Placeable`: the names that a file can have below a directory.
* `Placed`: a tree in which some files have been placed; `Placed.extends` says that nothing else is
  touched, `Placed.step` that one more file can be placed.
* `Placing`: the files have been placed up to one of them; `Placing.node?_eq_file_iff` says which
  files there are in the end.
-/

namespace CollectionDelta

open FileTree (checkPath maxPath maxEntryName)

/-! ## What has been placed -/

/-- What stands at a way below a directory in which the files have been placed, with the directories
that lead to them. -/
def planted : List (String × Bytes) → Location → Option Node
  | [], _ => none
  | (name, b) :: files, way =>
    if way = .ofName name then some (.file b)
    else if way <+: Location.ofName name then some .directory
    else planted files way

/-- Neither name leads to something below the other. -/
def Apart (name name' : String) : Prop :=
  ¬ Location.ofName name <+: Location.ofName name' ∧
    ¬ Location.ofName name' <+: Location.ofName name

variable {files : List (String × Bytes)} {way : Location} {name : String} {b : Bytes}

theorem planted_eq_file (h : planted files way = some (.file b)) :
    ∃ name, (name, b) ∈ files ∧ way = .ofName name := by
  induction files with
  | nil => cases h
  | cons e files ih =>
    obtain ⟨name, b'⟩ := e
    rw [planted] at h
    split at h
    · next heq =>
      cases h
      exact ⟨name, List.mem_cons_self .., heq⟩
    · split at h
      · cases h
      · obtain ⟨name', hmem, heq⟩ := ih h
        exact ⟨name', List.mem_cons_of_mem _ hmem, heq⟩

theorem planted_ne_link (files : List (String × Bytes)) (way : Location) (target : String) :
    planted files way ≠ some (.link target) := by
  induction files with
  | nil => exact nofun
  | cons e files ih =>
    rw [planted]
    split
    · exact nofun
    · split
      · exact nofun
      · exact ih

/-- Where anything stands, a file has been placed there or below. -/
theorem exists_of_planted {n : Node} (h : planted files way = some n) :
    ∃ e ∈ files, way <+: Location.ofName e.1 := by
  induction files with
  | nil => cases h
  | cons e files ih =>
    rw [planted] at h
    split at h
    · next heq => exact ⟨e, List.mem_cons_self .., heq ▸ List.prefix_rfl⟩
    · split at h
      · next hway => exact ⟨e, List.mem_cons_self .., hway⟩
      · obtain ⟨e', hmem, hway⟩ := ih h
        exact ⟨e', List.mem_cons_of_mem _ hmem, hway⟩

/-- Files with names apart do not hide one another. -/
theorem planted_of_mem (h : files.Pairwise fun e e' => Apart e.1 e'.1) (hmem : (name, b) ∈ files) :
    planted files (.ofName name) = some (.file b) := by
  induction files with
  | nil => cases hmem
  | cons e files ih =>
    obtain ⟨hfirst, hrest⟩ := List.pairwise_cons.1 h
    rw [planted]
    rcases List.mem_cons.1 hmem with rfl | hmem
    · rw [if_pos rfl]
    · have hapart := (hfirst _ hmem).2
      have hne : Location.ofName name ≠ .ofName e.1 := fun heq => hapart (heq ▸ List.prefix_rfl)
      rw [if_neg hne, if_neg hapart]
      exact ih hrest hmem

/-! ## Names below a directory -/

/-- A file below `root` can have this name. -/
structure Placeable (root name : String) : Prop where
  plain : Path.PlainName name
  no_nul : ∀ p ∈ Path.split name, '\x00' ∉ p.toList
  size_le : ∀ p ∈ Path.split name, p.utf8ByteSize ≤ maxEntryName
  no_backslash : '\\' ∉ name.toList
  path_le : (Path.join root name).utf8ByteSize ≤ maxPath

variable {t u : FileTree} {root : String} {l : Location}

theorem Placeable.pathBelow (h : Placeable root name) (hroot : t.locateDirectory root = .ok l) :
    t.PathBelow (Path.join root name) l (Path.split name) where
  check := by
    obtain ⟨hcheck, -, -⟩ := FileTree.locateDirectory_eq_ok_iff.1 hroot
    obtain ⟨hnul, hempty, -⟩ := FileTree.checkPath_eq_ok_iff.1 hcheck
    refine FileTree.checkPath_eq_ok_iff.2 ⟨Path.nul_not_mem_join hnul h.no_nul, ?_, h.path_le⟩
    simp [Path.join, hempty]
  leads := by
    obtain ⟨hcheck, ⟨k, hleads⟩, -⟩ := FileTree.locateDirectory_eq_ok_iff.1 hroot
    have hempty := (FileTree.checkPath_eq_ok_iff.1 hcheck).2.1
    refine ⟨Path.parts root, k, ?_, ?_⟩
    · rw [Path.parts_join, h.plain.parts_eq]
    · rwa [FileTree.startOf, Path.isAbsolute_join hempty]
  directory := (FileTree.locateDirectory_eq_ok_iff.1 hroot).2.2
  size_le := h.size_le

/-! ## Placing a file -/

/-- The tree `u` is the tree `t` with the files placed below the location `l`. -/
structure Placed (t : FileTree) (l : Location) (files : List (String × Bytes)) (u : FileTree) :
    Prop where
  current_eq : u.current = t.current
  below : ∀ {way}, way ≠ [] → u.node? (l ++ way) = planted files way
  outside : ∀ {l'}, (∀ way, way ≠ [] → l' ≠ l ++ way) → u.node? l' = t.node? l'

theorem FileTree.Empty.placed (h : t.Empty root l) : Placed t l [] t :=
  ⟨rfl, h.below, fun _ => rfl⟩

theorem Placed.extends (h : Placed t l files u) (hempty : t.Empty root l) : t.Extends u where
  node?_eq := by
    intro l' n hn
    rw [h.outside]
    · exact hn
    · rintro way hway rfl
      rw [hempty.below hway] at hn
      cases hn
  current_eq := h.current_eq

variable {ts : List String} {s : String}

/-- Only directories are in the way of another file, and nothing where it comes to lie. -/
theorem Placed.clear (h : Placed t l files u) (hempty : t.Empty root l)
    (hname : Location.ofName name = .ofTexts (ts ++ [s])) (hapart : ∀ e ∈ files, Apart name e.1) :
    u.Clear l ts ∧ u.node? (l ++ .ofName name) = none := by
  constructor
  · intro ps hps
    by_cases hnil : ps = []
    · left
      rw [hnil, Location.ofTexts, List.map_nil, List.append_nil]
      exact (h.extends hempty).node?_eq (FileTree.locateDirectory_eq_ok_iff.1 hempty.locate).2.2
    · rw [h.below (by simpa [Location.ofTexts] using hnil)]
      cases hn : planted files (.ofTexts ps) with
      | none => exact .inr rfl
      | some n =>
        left
        cases n with
        | directory => rfl
        | link target => exact absurd hn (planted_ne_link files _ target)
        | file b =>
          obtain ⟨name', hmem, heq⟩ := planted_eq_file hn
          have habove : Location.ofName name' <+: Location.ofName name := by
            rw [← heq, hname]
            exact Location.ofTexts_prefix (hps.trans (List.prefix_append ts [s]))
          exact absurd habove (hapart _ hmem).2
  · rw [h.below (Location.ofName_ne_nil name)]
    refine Option.eq_none_iff_forall_ne_some.2 fun n hn => ?_
    obtain ⟨e, hmem, hbelow⟩ := exists_of_planted hn
    exact (hapart e hmem).1 hbelow

/-- The directories on the way to another file can be made. -/
theorem Placeable.makeDirectories (hname : Placeable root name)
    (hroot : u.locateDirectory root = .ok l) (hts : Path.split name = ts ++ [s])
    (hclear : u.Clear l ts) : ∃ v,
      u.makeDirectories ((Path.parent? (Path.join root name)).getD "") = (.ok (), v) ∧
        u.Made l ts v := by
  have hmem := fun p (hp : p ∈ ts) => hts ▸ List.mem_append_left [s] hp
  have hplain : ∀ p ∈ ts, Path.Plain p := fun p hp => hname.plain p (hmem p hp)
  have hpath := hname.pathBelow hroot
  have hstem := FileTree.stem_of_locateDirectory hroot
  have hempty := (FileTree.checkPath_eq_ok_iff.1
    (FileTree.locateDirectory_eq_ok_iff.1 hroot).1).2.1
  have hparent : Path.parent? (Path.join root name) =
      some (Path.ofParts (Path.isAbsolute root) (Path.essential root ++ ts)) := by
    have hjoin := Path.parent?_join hempty (Path.split_ne_nil name) hname.plain
    rwa [Path.intercalate_split, hts, List.dropLast_concat] at hjoin
  rw [hparent, Option.getD_some]
  refine hstem.makeDirectoriesWithin hplain (fun p hp => hname.size_le p (hmem p hp))
    (FileTree.checkPath_parent hpath.check hparent) hclear ?_
  have hlen := Path.length_le_ofParts (Path.isAbsolute root)
    (hstem.trim.append hplain).nonempty
  rw [List.length_append] at hlen
  omega

/-- What stands below the location once a file and the directories on the way to it are there. -/
theorem Placed.of_made {v : FileTree} (h : Placed t l files u) (hmade : u.Made l ts v)
    (hname : Location.ofName name = .ofTexts (ts ++ [s])) (b : Bytes) :
    Placed t l ((name, b) :: files) (v.set (l ++ .ofName name) (.file b)) := by
  have hne : l ++ Location.ofName name ≠ [] :=
    List.append_ne_nil_of_right_ne_nil l (Location.ofName_ne_nil name)
  refine ⟨hmade.current_eq.trans h.current_eq, fun {way} hway => ?_, fun {l'} hl' => ?_⟩
  · rw [FileTree.node?_set v hne, planted]
    simp only [List.append_cancel_left_eq]
    by_cases heq : way = Location.ofName name
    · rw [if_pos heq, if_pos heq]
    · rw [if_neg heq, if_neg heq]
      split
      · next hbelow =>
        rw [hname] at hbelow heq
        obtain ⟨ps, hps, rfl⟩ := Location.exists_of_prefix_ofTexts hbelow
        rcases List.prefix_concat_iff.1 hps with rfl | hps
        · exact absurd rfl heq
        · exact hmade.made (fun hnil => hway (by rw [hnil]; rfl)) hps
      · next hbelow =>
        rw [hmade.kept, h.below hway]
        rintro ps - hps heq
        refine hbelow ?_
        rw [List.append_cancel_left heq, hname]
        exact Location.ofTexts_prefix (hps.trans (List.prefix_append ts [s]))
  · rw [FileTree.node?_set v hne, if_neg (hl' _ (Location.ofName_ne_nil name)), hmade.kept,
      h.outside hl']
    exact fun ps hps _ => hl' _ (by simpa [Location.ofTexts] using hps)

/-- A file whose name is apart from those of the others can be placed, too. -/
theorem Placed.step (h : Placed t l files u) (hempty : t.Empty root l) (hname : Placeable root name)
    (hapart : ∀ e ∈ files, Apart name e.1) (b : Bytes) :
    ∃ v, DiffFile.placeBelow root u name b = (.ok (), v) ∧ Placed t l ((name, b) :: files) v := by
  have hroot := (h.extends hempty).locateDirectory hempty.locate
  obtain ⟨ts, s, hts⟩ : ∃ ts s, Path.split name = ts ++ [s] :=
    ⟨_, _, (List.dropLast_concat_getLast (Path.split_ne_nil name)).symm⟩
  have hway : Location.ofName name = .ofTexts (ts ++ [s]) := by rw [Location.ofName, hts]
  obtain ⟨hclear, hnone⟩ := h.clear hempty hway hapart
  obtain ⟨v, hv, hmade⟩ := hname.makeDirectories hroot hts hclear
  have hext : u.Extends v := .of_makeDirectories hv
  have hdestination : v.destination (Path.join root name) = .ok (l ++ .ofName name) := by
    have hpath := hname.pathBelow (hext.locateDirectory hroot)
    rw [hts] at hpath
    rw [hway]
    refine hpath.destination (hmade.way ?_) ?_ (Path.endsInSlash_join root hname.plain)
    · exact (FileTree.locateDirectory_eq_ok_iff.1 hroot).2.2
    · rw [← hway, hmade.kept, hnone]
      rw [hway]
      exact fun ps _ hps => FileTree.append_ofTexts_concat_ne l hps
  refine ⟨_, ?_, h.of_made hmade hway b⟩
  simp only [DiffFile.placeBelow, ResourceName.path_eq root hname.plain, if_neg hname.no_backslash,
    hv, FileTree.writeFile, hdestination, bind, Except.bind, pure, Except.pure]

/-! ## Placing files one after another -/

/-- Some of the files `all` have been placed, and `rest` are still to be. -/
def Placing (t : FileTree) (l : Location) (all rest : List (String × Bytes)) (u : FileTree) : Prop :=
  ∃ files, Placed t l files u ∧ files.reverse ++ rest = all

variable {all rest : List (String × Bytes)}

theorem FileTree.Empty.placing (h : t.Empty root l) (all : List (String × Bytes)) :
    Placing t l all all t := ⟨[], h.placed, rfl⟩

theorem Placing.extends (h : Placing t l all rest u) (hempty : t.Empty root l) : t.Extends u := by
  obtain ⟨files, hplaced, -⟩ := h
  exact hplaced.extends hempty

theorem Placing.mem (h : Placing t l all ((name, b) :: rest) u) : (name, b) ∈ all := by
  obtain ⟨files, -, hall⟩ := h
  rw [← hall]
  exact List.mem_append_right _ (List.mem_cons_self ..)

theorem Placing.step (h : Placing t l all ((name, b) :: rest) u) (hempty : t.Empty root l)
    (hname : Placeable root name) (hall : all.Pairwise fun e e' => Apart e.1 e'.1) :
    ∃ v, DiffFile.placeBelow root u name b = (.ok (), v) ∧ Placing t l all rest v := by
  obtain ⟨files, hplaced, rfl⟩ := h
  have hapart : ∀ e ∈ files, Apart name e.1 := by
    intro e he
    have hearlier := (List.pairwise_append.1 hall).2.2 e (List.mem_reverse.2 he) (name, b)
      (List.mem_cons_self ..)
    exact hearlier.symm
  obtain ⟨v, hv, hplaced⟩ := hplaced.step hempty hname hapart b
  refine ⟨v, hv, (name, b) :: files, hplaced, ?_⟩
  rw [List.reverse_cons, List.append_assoc, List.singleton_append]

/-- In the end just the files that were to be placed are there. -/
theorem Placing.node?_eq_file_iff (h : Placing t l all [] u) (hempty : t.Empty root l)
    (hall : all.Pairwise fun e e' => Apart e.1 e'.1) :
    u.node? (l ++ way) = some (.file b) ↔ ∃ name, (name, b) ∈ all ∧ way = .ofName name := by
  have hdirectory := (h.extends hempty).node?_eq
    (FileTree.locateDirectory_eq_ok_iff.1 hempty.locate).2.2
  obtain ⟨files, hplaced, rfl⟩ := h
  simp only [List.append_nil, List.mem_reverse] at hall ⊢
  constructor
  · intro hb
    have hway : way ≠ [] := by
      rintro rfl
      rw [List.append_nil, hdirectory] at hb
      cases hb
    rw [hplaced.below hway] at hb
    exact planted_eq_file hb
  · rintro ⟨name, hmem, rfl⟩
    rw [List.pairwise_reverse] at hall
    rw [hplaced.below (Location.ofName_ne_nil name)]
    exact planted_of_mem (hall.imp fun hapart => hapart.symm) hmem

end CollectionDelta
