import CollectionDelta.Proofs.FileTree.Walk
import Mathlib.Data.List.Induction

/-!
Entries made by path.

* `Extends.set`: a new entry leaves everything else as it is; `Extends.of_makeDirectories` says the
  same of new directories.
* `makeDirectory_eq_ok_iff`: when one directory can be made, and what the tree is then.
* `ensureDirectory_existing`: a directory that is there is left as it is.
* `PathBelow`, `Way`, `Clear`: a path that goes on from a directory by names, along directories, or
  with nothing but directories in the way.
* `Made`, `PathBelow.makeDirectories`: the tree with all directories on the way, and that they can be
  made.
* `PathBelow.destination`: where a new file comes to lie.
* `locate_set_destination`, `readFile_set_destination`, `locateDirectory_set_destination`: where paths
  lead once a file has been written.
-/

namespace CollectionDelta.FileTree

variable {t u : FileTree} {path : String} {l : Location}

/-! ## One directory -/

theorem Extends.set (hl : l ≠ []) (hn : t.node? l = none) (n : Node) : t.Extends (t.set l n) where
  node?_eq := by
    intro l' n' hn'
    have hne : l' ≠ l := by
      rintro rfl
      rw [hn] at hn'
      cases hn'
    rw [node?_set t hl, if_neg hne, hn']
  current_eq := rfl

theorem makeDirectory_eq_ok_iff : t.makeDirectory path = .ok u ↔ checkPath path = .ok () ∧
    ∃ ps name k l, Path.parts path = ps ++ [.down name] ∧
      Leads t maxLinks (t.startOf path) ps k l ∧ t.node? l = some .directory ∧
      name.utf8ByteSize ≤ maxEntryName ∧ t.node? (l ++ [.text name]) = none ∧
      t.set (l ++ [.text name]) .directory = u := by
  constructor
  · intro h
    unfold makeDirectory at h
    cases hcheck : checkPath path with
    | error f => simp [hcheck, bind, Except.bind] at h
    | ok v =>
      refine ⟨rfl, ?_⟩
      cases hwalk : t.walk .fails maxLinks (t.startOf path) (Path.parts path).dropLast with
      | error f => simp [hcheck, hwalk, bind, Except.bind] at h
      | ok l =>
        obtain ⟨k, hleads⟩ := leads_of_walk hwalk
        simp only [hcheck, hwalk, bind, Except.bind] at h
        split at h
        · cases h
        · next hdir =>
          split at h
          · next name hlast =>
            split at h
            · cases h
            · next hsize =>
              split at h
              · cases h
              · next hn =>
                cases h
                obtain ⟨ps, hps⟩ := List.getLast?_eq_some_iff.1 hlast
                rw [hps, List.dropLast_concat] at hleads
                exact ⟨ps, name, k, l, hps, hleads, Classical.not_not.1 hdir,
                  Nat.le_of_not_lt hsize, hn, rfl⟩
          · cases h
  · rintro ⟨hcheck, ps, name, k, l, hparts, hleads, hdir, hsize, hn, rfl⟩
    unfold makeDirectory
    simp only [hcheck, hparts, List.dropLast_concat, List.getLast?_concat, hleads.walk, bind,
      Except.bind, if_neg (not_not_intro hdir), if_neg (Nat.not_lt.2 hsize), hn]
    rfl

theorem Extends.of_makeDirectory (h : t.makeDirectory path = .ok u) : t.Extends u := by
  obtain ⟨-, ps, name, k, l, -, -, -, -, hn, rfl⟩ := makeDirectory_eq_ok_iff.1 h
  exact .set (List.append_ne_nil_of_right_ne_nil l (List.cons_ne_nil _ _)) hn _

theorem Extends.of_ensureDirectory (h : t.ensureDirectory path = .ok u) : t.Extends u := by
  unfold ensureDirectory at h
  split at h
  · next v hv =>
    cases h
    exact .of_makeDirectory hv
  · split at h
    · cases h
      exact .refl t
    · cases h

/-- Whatever is made before a failure, nothing is lost or changed. -/
theorem extends_makeDirectoriesWithin (t : FileTree) (path : String) (depth : Nat) :
    t.Extends (t.makeDirectoriesWithin path depth).2 := by
  induction depth generalizing path with
  | zero => exact .refl t
  | succ depth ih =>
    unfold makeDirectoriesWithin
    split
    · exact .refl t
    · split
      · next u hu => exact .of_ensureDirectory hu
      · next f hf =>
        split
        · exact .refl t
        · split
          · exact .refl t
          · next parent hparent =>
            have hparent := ih parent
            split
            · next e u hu => rwa [hu] at hparent
            · next u hu =>
              rw [hu] at hparent
              split
              · next v hv => exact hparent.trans (.of_ensureDirectory hv)
              · exact hparent

theorem Extends.of_makeDirectories {r : Except Fault Unit} (h : t.makeDirectories path = (r, u)) :
    t.Extends u := by
  have hext := extends_makeDirectoriesWithin t path (path.length + 1)
  rwa [show t.makeDirectoriesWithin path (path.length + 1) = (r, u) from h] at hext

theorem isDirectory_eq_true_iff : t.isDirectory path = true ↔
    ∃ l, t.locateDirectory path = .ok l := by
  unfold isDirectory stat locateDirectory
  cases t.locate path with
  | error f => simp [bind, Except.bind]
  | ok l =>
    simp only [bind, Except.bind, pure, Except.pure]
    cases t.node? l with
    | none => simp
    | some n => cases n <;> simp

/-- A directory that is there is left as it is. -/
theorem ensureDirectory_existing (h : t.locateDirectory path = .ok l) :
    t.ensureDirectory path = .ok t := by
  obtain ⟨hcheck, ⟨k, hleads⟩, hl⟩ := locateDirectory_eq_ok_iff.1 h
  have hdirectory : t.isDirectory path = true := isDirectory_eq_true_iff.2 ⟨l, h⟩
  unfold ensureDirectory
  split
  · next u hu =>
    -- the path would have to end where there is nothing
    obtain ⟨-, ps, name, k', l', hparts, hps, -, -, hn, -⟩ := makeDirectory_eq_ok_iff.1 hu
    rw [hparts] at hleads
    have hwalk := hleads.walk .fails
    rw [hps.walk_append] at hwalk
    obtain ⟨k'', hlast⟩ := leads_of_walk hwalk
    cases hlast with
    | down _ _ hn' => rw [hn] at hn'; cases hn'
    | link _ _ hn' => rw [hn] at hn'; cases hn'
  · rw [if_pos hdirectory]

/-! ## Directories on the way -/

/-- The path leads to the directory `l`, and from there on by names. -/
structure PathBelow (t : FileTree) (path : String) (l : Location) (ts : List String) : Prop where
  check : checkPath path = .ok ()
  leads : ∃ ps k, Path.parts path = ps ++ ts.map .down ∧
    Leads t maxLinks (t.startOf path) ps k l
  directory : t.node? l = some .directory
  size_le : ∀ p ∈ ts, p.utf8ByteSize ≤ maxEntryName

/-- All names lead to directories. -/
def Way (t : FileTree) (l : Location) (ts : List String) : Prop :=
  ∀ ps, ps <+: ts → t.node? (l ++ .ofTexts ps) = some .directory

/-- Nothing but directories is in the way. -/
def Clear (t : FileTree) (l : Location) (ts : List String) : Prop :=
  ∀ ps, ps <+: ts → t.node? (l ++ .ofTexts ps) = some .directory ∨
    t.node? (l ++ .ofTexts ps) = none

variable {ts : List String} {s : String}

theorem PathBelow.extend (h : t.PathBelow path l ts) (hu : t.Extends u) :
    u.PathBelow path l ts where
  check := h.check
  leads := by
    obtain ⟨ps, k, hparts, hleads⟩ := h.leads
    refine ⟨ps, k, hparts, ?_⟩
    rw [startOf, hu.current_eq]
    exact hleads.extend hu
  directory := hu.node?_eq h.directory
  size_le := h.size_le

theorem Clear.of_append (h : t.Clear l (ts ++ [s])) : t.Clear l ts :=
  fun ps hps => h ps (hps.trans (List.prefix_append ts [s]))

theorem way_nil (hl : t.node? l = some .directory) : t.Way l [] := by
  intro ps hps
  rw [List.prefix_nil.1 hps, Location.ofTexts, List.map_nil, List.append_nil]
  exact hl

theorem Way.concat (h : t.Way l ts) (hs : t.node? (l ++ .ofTexts (ts ++ [s])) = some .directory) :
    t.Way l (ts ++ [s]) := by
  intro ps hps
  rcases List.prefix_concat_iff.1 hps with rfl | hps
  · exact hs
  · exact h ps hps

/-- If not all directories on the way are there, one of them is the first that is missing. -/
theorem Clear.way_or_missing (h : t.Clear l ts) (hl : t.node? l = some .directory) : t.Way l ts ∨
    ∃ ps s, ps ++ [s] <+: ts ∧ t.Way l ps ∧ t.node? (l ++ .ofTexts (ps ++ [s])) = none := by
  induction ts using List.reverseRecOn with
  | nil => exact .inl (way_nil hl)
  | append_singleton ts s ih =>
    rcases ih h.of_append with hway | ⟨ps, s', hps, hway, hnone⟩
    · rcases h (ts ++ [s]) List.prefix_rfl with hdir | hnone
      · exact .inl (hway.concat hdir)
      · exact .inr ⟨ts, s, List.prefix_rfl, hway, hnone⟩
    · exact .inr ⟨ps, s', hps.trans (List.prefix_append ts [s]), hway, hnone⟩

theorem Way.leads (h : t.Way l ts) (k : Nat) (hsize : ∀ p ∈ ts, p.utf8ByteSize ≤ maxEntryName) :
    Leads t k l (ts.map .down) k (l ++ .ofTexts ts) := by
  have hlink : ∀ target, Node.directory ≠ .link target := nofun
  exact leads_down k hsize (fun ps qs heq _ => h ps ⟨qs, heq.symm⟩) (h ts List.prefix_rfl) hlink

/-- A walk does not get beyond a directory that is missing. -/
theorem Way.walk_missing {ps : List String} {k k' : Nat} {l₀ : Location} {front : List Part}
    (h : t.Way l ps) (hfront : Leads t k l₀ front k' l)
    (hsize : ∀ p ∈ ts, p.utf8ByteSize ≤ maxEntryName) (hps : ps ++ [s] <+: ts)
    (hnone : t.node? (l ++ .ofTexts (ps ++ [s])) = none) :
    t.walk .fails k l₀ (front ++ ts.map .down) = .error .noSuchFile := by
  obtain ⟨qs, rfl⟩ := hps
  have hdown := h.leads k' fun p hp =>
    hsize p (List.mem_append_left _ (List.mem_append_left _ hp))
  have hs := hsize s (List.mem_append_left _ (List.mem_append_right _ (List.mem_singleton_self s)))
  rw [Location.ofTexts, List.map_append, ← List.append_assoc] at hnone
  have hparts : front ++ (ps ++ [s] ++ qs).map .down =
      front ++ ps.map .down ++ .down s :: qs.map .down := by simp
  rw [hparts, (hfront.append hdown).walk_append,
    FileTree.walk_missing .fails (h ps List.prefix_rfl) hs hnone, if_neg]
  intro hlast
  cases hlast.2

theorem PathBelow.locateDirectory (h : t.PathBelow path l ts) (hway : t.Way l ts) :
    t.locateDirectory path = .ok (l ++ .ofTexts ts) := by
  obtain ⟨front, k, hparts, hleads⟩ := h.leads
  have hall := hleads.append (hway.leads k h.size_le)
  rw [← hparts] at hall
  exact locateDirectory_eq_ok_iff.2 ⟨h.check, ⟨k, hall⟩, hway ts List.prefix_rfl⟩

/-- The tree `u` is the tree `t` with all directories on the way. -/
structure Made (t : FileTree) (l : Location) (ts : List String) (u : FileTree) : Prop where
  current_eq : u.current = t.current
  made : ∀ {ps}, ps ≠ [] → ps <+: ts → u.node? (l ++ .ofTexts ps) = some .directory
  kept : ∀ {l'}, (∀ ps, ps ≠ [] → ps <+: ts → l' ≠ l ++ .ofTexts ps) → u.node? l' = t.node? l'

theorem Way.made (h : t.Way l ts) : t.Made l ts t := ⟨rfl, fun _ hps => h _ hps, fun _ => rfl⟩

/-- The last directory of a path is there, or can be made if all others are there. -/
theorem PathBelow.ensureDirectory_last (h : t.PathBelow path l (ts ++ [s])) (hway : t.Way l ts)
    (hclear : t.Clear l (ts ++ [s])) :
    ∃ u, t.ensureDirectory path = .ok u ∧ t.Made l (ts ++ [s]) u := by
  rcases hclear (ts ++ [s]) List.prefix_rfl with hdir | hnone
  · have hall := hway.concat hdir
    exact ⟨t, ensureDirectory_existing (h.locateDirectory hall), hall.made⟩
  · obtain ⟨front, k, hparts, hleads⟩ := h.leads
    have hsize := fun p hp => h.size_le p (List.mem_append_left [s] hp)
    have hlast : l ++ .ofTexts (ts ++ [s]) = l ++ .ofTexts ts ++ [.text s] := by
      simp [Location.ofTexts]
    have hmake : t.makeDirectory path = .ok (t.set (l ++ .ofTexts (ts ++ [s])) .directory) := by
      refine makeDirectory_eq_ok_iff.2 ⟨h.check, front ++ ts.map .down, s, k, l ++ .ofTexts ts, ?_,
        hleads.append (hway.leads k hsize), hway ts List.prefix_rfl,
        h.size_le s (List.mem_append_right ts (List.mem_singleton_self s)), ?_, ?_⟩
      · rw [hparts, List.map_append, ← List.append_assoc]
        rfl
      · rwa [← hlast]
      · rw [← hlast]
    have hne : l ++ .ofTexts (ts ++ [s]) ≠ [] := by simp [Location.ofTexts]
    refine ⟨t.set (l ++ .ofTexts (ts ++ [s])) .directory, by rw [ensureDirectory, hmake], rfl, ?_,
      ?_⟩
    · intro ps _ hps
      rw [node?_set t hne]
      split
      · rfl
      · next hps' =>
        rcases List.prefix_concat_iff.1 hps with rfl | hps
        · exact absurd rfl hps'
        · exact hway ps hps
    · intro l' hl'
      rw [node?_set t hne, if_neg (hl' _ (List.append_ne_nil_of_right_ne_nil ts (by simp))
        List.prefix_rfl)]

/-- If another one is missing, it cannot. -/
theorem PathBelow.ensureDirectory_missing {ps : List String} {s' : String}
    (h : t.PathBelow path l (ts ++ [s])) (hps : ps ++ [s'] <+: ts) (hway : t.Way l ps)
    (hnone : t.node? (l ++ .ofTexts (ps ++ [s'])) = none) :
    t.ensureDirectory path = .error .noSuchFile := by
  obtain ⟨front, k, hparts, hleads⟩ := h.leads
  have hinit : (Path.parts path).dropLast = front ++ ts.map .down := by
    rw [hparts, List.map_append, ← List.append_assoc]
    exact List.dropLast_concat
  have hsize := fun p hp => h.size_le p (List.mem_append_left [s] hp)
  have hwalk := hway.walk_missing hleads hsize hps hnone
  have hmake : t.makeDirectory path = .error .noSuchFile := by
    unfold makeDirectory
    simp only [h.check, hinit, hwalk, bind, Except.bind]
  have hmissing : t.isDirectory path = false := by
    rw [Bool.eq_false_iff]
    intro hdir
    obtain ⟨l', hl'⟩ := isDirectory_eq_true_iff.1 hdir
    obtain ⟨-, ⟨k', hleads'⟩, -⟩ := locateDirectory_eq_ok_iff.1 hl'
    have hall := hway.walk_missing hleads h.size_le (hps.trans (List.prefix_append ts [s])) hnone
    rw [← hparts, hleads'.walk] at hall
    cases hall
  rw [ensureDirectory, hmake]
  simp only [hmissing, Bool.false_eq_true, if_false]

/-! ## All directories of a path -/

theorem append_ofTexts_ne {ps : List String} (l : Location) (hne : ps ≠ []) :
    l ≠ l ++ .ofTexts ps := by
  intro heq
  have hnil : Location.ofTexts ps = Location.ofTexts [] := List.self_eq_append_right.1 heq
  exact hne (Location.ofTexts_injective hnil)

/-- The last of some directories is none of those before it. -/
theorem append_ofTexts_concat_ne {ps : List String} (l : Location) (hps : ps <+: ts) :
    l ++ .ofTexts (ts ++ [s]) ≠ l ++ .ofTexts ps := by
  intro heq
  have hlen := hps.length_le
  rw [← Location.ofTexts_injective (List.append_cancel_left heq), List.length_append,
    List.length_singleton] at hlen
  omega

theorem Made.way (h : t.Made l ts u) (hl : t.node? l = some .directory) : u.Way l ts := by
  intro ps hps
  by_cases hnil : ps = []
  · subst hnil
    rw [Location.ofTexts, List.map_nil, List.append_nil, ← hl]
    exact h.kept fun qs hqs _ => append_ofTexts_ne l hqs
  · exact h.made hnil hps

theorem Made.clear (h : t.Made l ts u) (hl : t.node? l = some .directory)
    (hclear : t.Clear l (ts ++ [s])) : u.Clear l (ts ++ [s]) := by
  intro ps hps
  rcases List.prefix_concat_iff.1 hps with rfl | hps'
  · rw [h.kept]
    · exact hclear _ hps
    · exact fun qs _ hqs => append_ofTexts_concat_ne l hqs
  · exact .inl (h.way hl ps hps')

theorem Made.trans {v : FileTree} (h : t.Made l ts u) (h' : u.Made l (ts ++ [s]) v) :
    t.Made l (ts ++ [s]) v where
  current_eq := h'.current_eq.trans h.current_eq
  made := h'.made
  kept hl' := (h'.kept hl').trans
    (h.kept fun ps hne hps => hl' ps hne (hps.trans (List.prefix_append ts [s])))

/-- Where the parent of a path can be made, so can the path. -/
theorem PathBelow.makeDirectoriesWithin_of_parent (h : t.PathBelow path l (ts ++ [s]))
    (hclear : t.Clear l (ts ++ [s])) {parent : String} (hparent : Path.parent? path = some parent)
    {depth : Nat} (hu : t.makeDirectoriesWithin parent depth = (.ok (), u))
    (hmade : t.Made l ts u) :
    ∃ v, t.makeDirectoriesWithin path (depth + 1) = (.ok (), v) ∧ t.Made l (ts ++ [s]) v := by
  have hempty : path ≠ "" := (checkPath_eq_ok_iff.1 h.check).2.1
  have hext : t.Extends u := by
    have hext := extends_makeDirectoriesWithin t parent depth
    rwa [hu] at hext
  rw [makeDirectoriesWithin, if_neg hempty]
  rcases hclear.of_append.way_or_missing h.directory with hway | ⟨ps, s', hps, hway, hnone⟩
  · obtain ⟨v, hv, hmade'⟩ := h.ensureDirectory_last hway hclear
    exact ⟨v, by simp only [hv], hmade'⟩
  · obtain ⟨v, hv, hmade'⟩ := (h.extend hext).ensureDirectory_last (hmade.way h.directory)
      (hmade.clear h.directory hclear)
    refine ⟨v, ?_, hmade.trans hmade'⟩
    have hkind : Fault.noSuchFile.kind = .notFound := rfl
    simp only [h.ensureDirectory_missing hps hway hnone, hkind, ne_eq, not_true_eq_false, if_false,
      hparent, hu, hv]

theorem checkPath_parent {parent : String} (h : checkPath path = .ok ())
    (hparent : Path.parent? path = some parent) (hempty : parent ≠ "") :
    checkPath parent = .ok () := by
  obtain ⟨hnul, -, hsize⟩ := checkPath_eq_ok_iff.1 h
  have hsub := Path.sublist_of_parent? hparent
  exact checkPath_eq_ok_iff.2 ⟨fun hmem => hnul (hsub.subset hmem), hempty,
    Nat.le_trans (Path.size_le_of_sublist hsub) hsize⟩

variable {absolute : Bool} {es : List String}

/-- Parts of which none can be left out lead to the directory `l`. -/
structure Stem (t : FileTree) (absolute : Bool) (es : List String) (l : Location) : Prop where
  trim : Path.Trim absolute es
  leads : ∃ k, Leads t maxLinks (if absolute then [] else t.current) (es.map Path.part) k l
  directory : t.node? l = some .directory

theorem stem_of_locateDirectory (h : t.locateDirectory path = .ok l) :
    t.Stem (Path.isAbsolute path) (Path.essential path) l := by
  obtain ⟨-, ⟨k, hleads⟩, hl⟩ := locateDirectory_eq_ok_iff.1 h
  exact ⟨Path.trim_essential path, ⟨k, hleads.skip (skips_essential path)⟩, hl⟩

theorem Stem.pathBelow (h : t.Stem absolute es l) (hts : ∀ p ∈ ts, Path.Plain p)
    (hsize : ∀ p ∈ ts, p.utf8ByteSize ≤ maxEntryName)
    (hcheck : checkPath (Path.ofParts absolute (es ++ ts)) = .ok ()) :
    t.PathBelow (Path.ofParts absolute (es ++ ts)) l ts where
  check := hcheck
  leads := by
    obtain ⟨k, hk⟩ := h.leads
    have htrim := h.trim.append hts
    refine ⟨es.map Path.part, k, ?_, ?_⟩
    · rw [Path.parts_ofParts htrim, List.map_append, Path.map_part_plain hts]
    · rwa [startOf, Path.isAbsolute_ofParts htrim]
  directory := h.directory
  size_le := hsize

/-- All directories of a path are made, however many of them are there. The path is empty if it is
that of the directory where it starts. -/
theorem Stem.makeDirectoriesWithin (h : t.Stem absolute es l) (hts : ∀ p ∈ ts, Path.Plain p)
    (hsize : ∀ p ∈ ts, p.utf8ByteSize ≤ maxEntryName)
    (hcheck : Path.ofParts absolute (es ++ ts) ≠ "" →
      checkPath (Path.ofParts absolute (es ++ ts)) = .ok ())
    (hclear : t.Clear l ts) {depth : Nat} (hdepth : ts.length < depth) :
    ∃ u, t.makeDirectoriesWithin (Path.ofParts absolute (es ++ ts)) depth = (.ok (), u) ∧
      t.Made l ts u := by
  induction ts using List.reverseRecOn generalizing depth with
  | nil =>
    obtain ⟨depth, rfl⟩ := Nat.exists_eq_add_one_of_ne_zero (Nat.ne_zero_of_lt hdepth)
    have hway : t.Way l [] := way_nil h.directory
    refine ⟨t, ?_, hway.made⟩
    rw [FileTree.makeDirectoriesWithin]
    split
    · rfl
    · next hempty =>
      have hlocate := (h.pathBelow hts hsize (hcheck hempty)).locateDirectory hway
      rw [ensureDirectory_existing hlocate]
  | append_singleton ts s ih =>
    obtain ⟨depth, rfl⟩ := Nat.exists_eq_add_one_of_ne_zero (Nat.ne_zero_of_lt hdepth)
    have hts' := fun p hp => hts p (List.mem_append_left [s] hp)
    have hsize' := fun p hp => hsize p (List.mem_append_left [s] hp)
    have hparent : Path.parent? (Path.ofParts absolute (es ++ (ts ++ [s]))) =
        some (Path.ofParts absolute (es ++ ts)) := by
      rw [Path.parent?_ofParts (h.trim.append hts) (by simp), ← List.append_assoc,
        List.dropLast_concat]
    have hempty : Path.ofParts absolute (es ++ (ts ++ [s])) ≠ "" := fun hempty => by
      rw [hempty] at hparent
      cases hparent
    have hcheck' := checkPath_parent (hcheck hempty) hparent
    have hdepth' : ts.length < depth := by
      rw [List.length_append, List.length_singleton] at hdepth
      omega
    obtain ⟨u, hu, hmade⟩ := ih hts' hsize' hcheck' hclear.of_append hdepth'
    exact (h.pathBelow hts hsize (hcheck hempty)).makeDirectoriesWithin_of_parent hclear hparent hu
      hmade

/-- The directories of a path that ends in names are made. -/
theorem PathBelow.makeDirectories (h : t.PathBelow path l (ts ++ [s]))
    (hclear : t.Clear l (ts ++ [s])) :
    ∃ u, t.makeDirectories path = (.ok (), u) ∧ t.Made l (ts ++ [s]) u := by
  obtain ⟨front, k, hparts, hleads⟩ := h.leads
  obtain ⟨es, hessential, hskips⟩ := essential_of_parts hparts
  have hplain : ∀ p ∈ ts ++ [s], Path.Plain p := fun p hp => by
    refine Path.plain_of_mem_parts (s := path) ?_
    rw [hparts]
    exact List.mem_append_right front (List.mem_map_of_mem hp)
  have htrim : Path.Trim (Path.isAbsolute path) es := by
    have htrim := Path.trim_essential path
    rw [hessential] at htrim
    exact htrim.of_append
  have hstem : t.Stem (Path.isAbsolute path) es l := ⟨htrim, ⟨k, hleads.skip hskips⟩, h.directory⟩
  have hparent : Path.parent? path = some (Path.ofParts (Path.isAbsolute path) (es ++ ts)) := by
    rw [Path.parent?_eq, hessential, if_neg (by simp), ← List.append_assoc, List.dropLast_concat]
  have hdepth : ts.length < path.length := by
    have hlen := Path.length_essential_le path
    rw [hessential, List.length_append, List.length_append, List.length_singleton] at hlen
    omega
  obtain ⟨u, hu, hmade⟩ := hstem.makeDirectoriesWithin
    (fun p hp => hplain p (List.mem_append_left [s] hp))
    (fun p hp => h.size_le p (List.mem_append_left [s] hp)) (checkPath_parent h.check hparent)
    hclear.of_append hdepth
  exact h.makeDirectoriesWithin_of_parent hclear hparent hu hmade

/-! ## Files -/

/-- Where a new file comes to lie. -/
theorem PathBelow.destination (h : t.PathBelow path l (ts ++ [s])) (hway : t.Way l ts)
    (hnone : t.node? (l ++ .ofTexts (ts ++ [s])) = none) (hslash : Path.endsInSlash path = false) :
    t.destination path = .ok (l ++ .ofTexts (ts ++ [s])) := by
  obtain ⟨front, k, hparts, hleads⟩ := h.leads
  have hdown := hway.leads k fun p hp => h.size_le p (List.mem_append_left [s] hp)
  have hsplit : Path.parts path = front ++ ts.map .down ++ [.down s] := by
    rw [hparts, List.map_append, ← List.append_assoc]
    rfl
  have hlast : l ++ .ofTexts (ts ++ [s]) = l ++ .ofTexts ts ++ [.text s] := by
    simp [Location.ofTexts]
  have hs := h.size_le s (List.mem_append_right ts (List.mem_singleton_self s))
  rw [hlast] at hnone
  have hwalk : t.walk .allowed maxLinks (t.startOf path) (Path.parts path) =
      .ok (l ++ .ofTexts ts ++ [.text s]) := by
    rw [hsplit, (hleads.append hdown).walk_append,
      FileTree.walk_missing .allowed (hway ts List.prefix_rfl) hs hnone, if_pos ⟨rfl, rfl⟩]
  unfold FileTree.destination
  simp only [h.check, hslash, hwalk, bind, Except.bind, Bool.false_eq_true, if_false, hnone,
    hlast, pure, Except.pure]
  rfl

theorem not_link_of_walkBy (h : t.WellFormed) {m : Missing} {l' : Location} {ps : List Part}
    {follow : Location → List Part → Except Fault Location}
    (hfollow : ∀ start rest, t.node? start = some .directory → follow start rest = .ok l' →
      ∀ target, t.node? l' ≠ some (.link target))
    (hl : ∀ target, t.node? l ≠ some (.link target)) (hwalk : t.walkBy m follow l ps = .ok l') :
    ∀ target, t.node? l' ≠ some (.link target) := by
  fun_induction walkBy t m follow l ps with
  | case1 l => cases hwalk; exact hl
  | case2 => cases hwalk
  | case3 l ps hdir ih => exact ih hl hwalk
  | case4 l ps hdir ih =>
    refine ih (fun target hlink => ?_) hwalk
    rw [h.directory_dropLast (Classical.not_not.1 hdir)] at hlink
    cases hlink
  | case5 => cases hwalk
  | case6 l ps hdir name hsize next hn hlast =>
    intro target hlink
    rw [← Except.ok.inj hwalk, hn] at hlink
    cases hlink
  | case7 => cases hwalk
  | case8 l ps hdir name hsize next target hn =>
    refine hfollow _ _ ?_ hwalk
    split
    · exact node?_root t
    · exact Classical.not_not.1 hdir
  | case9 l ps hdir name hsize next n hlink hn ih =>
    refine ih (fun target hn' => hlink target ?_) hwalk
    rw [hn] at hn'
    exact Option.some.inj hn'

/-- No walk ends at a link. -/
theorem not_link_of_walk (h : t.WellFormed) {m : Missing} {k : Nat} {l' : Location}
    {ps : List Part} (hl : t.node? l = some .directory) (hwalk : t.walk m k l ps = .ok l') :
    ∀ target, t.node? l' ≠ some (.link target) := by
  have hnot : ∀ {x}, t.node? x = some .directory → ∀ target, t.node? x ≠ some (.link target) := by
    intro x hx target hlink
    rw [hx] at hlink
    cases hlink
  induction k generalizing l ps with
  | zero =>
    refine not_link_of_walkBy h (fun start rest _ hrest => ?_) (hnot hl) hwalk
    cases hrest
  | succ k ih =>
    exact not_link_of_walkBy h (fun start rest hstart hrest => ih hstart hrest) (hnot hl) hwalk

theorem destination_eq_ok (h : t.destination path = .ok l) : checkPath path = .ok () ∧
    Path.endsInSlash path = false ∧
    t.walk .allowed maxLinks (t.startOf path) (Path.parts path) = .ok l ∧
    t.node? l ≠ some .directory := by
  unfold destination at h
  cases hcheck : checkPath path with
  | error f => simp [hcheck, bind, Except.bind] at h
  | ok u =>
    simp only [hcheck, bind, Except.bind] at h
    split at h
    · split at h
      · cases h
      · split at h <;> cases h
    · next hslash =>
      split at h
      · cases h
      · next l' hwalk =>
        split at h
        · cases h
        · next hdir =>
          cases h
          exact ⟨rfl, Bool.eq_false_iff.2 hslash, hwalk, hdir⟩

/-- Writing a file does not change where directories, links and other files are. -/
theorem retains_set_destination (h : t.WellFormed) (hl : t.destination path = .ok l) (b : Bytes) :
    t.Retains (t.set l (.file b)) ∧ (t.set l (.file b)).node? l = some (.file b) := by
  obtain ⟨-, -, hwalk, hdir⟩ := destination_eq_ok hl
  have hlink := not_link_of_walk h (h.directory_startOf path) hwalk
  have hne : l ≠ [] := fun hnil => hdir (hnil ▸ node?_root t)
  have hset := node?_set t hne
  refine ⟨⟨?_, ?_, ?_⟩, by rw [hset, if_pos rfl]⟩
  · intro x hx
    have hxl : x ≠ l := fun heq => hdir (heq ▸ hx)
    rw [hset, if_neg hxl, hx]
  · intro x target hx
    have hxl : x ≠ l := fun heq => hlink target (heq ▸ hx)
    rw [hset, if_neg hxl, hx]
  · intro x b' hx
    rw [hset]
    split
    · exact ⟨b, rfl⟩
    · exact ⟨b', hx⟩

/-- What has been written is read. -/
theorem locate_set_destination (h : t.WellFormed) (hl : t.destination path = .ok l) (b : Bytes) :
    (t.set l (.file b)).locate path = .ok l := by
  obtain ⟨hu, hb⟩ := retains_set_destination h hl b
  obtain ⟨hcheck, hslash, hwalk, -⟩ := destination_eq_ok hl
  obtain ⟨k, hleads⟩ := leads_of_walk_retains hu (fun _ => ⟨b, hb⟩) hwalk
  refine locate_eq_ok_iff.2 ⟨hcheck, ⟨k, hleads⟩, ?_⟩
  rw [hslash]
  exact nofun

theorem readFile_set_destination (h : t.WellFormed) (hl : t.destination path = .ok l) (b : Bytes) :
    (t.set l (.file b)).readFile path = .ok b :=
  readFile_of_locate (locate_set_destination h hl b) (retains_set_destination h hl b).2

theorem locateDirectory_set_destination (h : t.WellFormed) (hl : t.destination path = .ok l)
    (b : Bytes) {root : String} {l' : Location} (hroot : t.locateDirectory root = .ok l') :
    (t.set l (.file b)).locateDirectory root = .ok l' := by
  obtain ⟨hu, -⟩ := retains_set_destination h hl b
  obtain ⟨hcheck, ⟨k, hleads⟩, hdir⟩ := locateDirectory_eq_ok_iff.1 hroot
  obtain ⟨k', hleads'⟩ := leads_of_walk_retains (m := .fails) hu nofun (hleads.walk .fails)
  exact locateDirectory_eq_ok_iff.2 ⟨hcheck, ⟨k', hleads'⟩, hu.directory hdir⟩

end CollectionDelta.FileTree
