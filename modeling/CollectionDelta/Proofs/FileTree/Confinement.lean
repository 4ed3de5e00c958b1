import CollectionDelta.Proofs.FileTree.Vacancy
import Mathlib.Data.List.Basic

/-!
What making directories and writing files can reach.

* `LeadsTo`: the directory at the end of a path; the empty path leads to where relative paths start.
* `LinkFree`: no link stands below a directory, so that names lead further down only
  (`LinkFree.walk_names`).
* `ChangedBelow`: a tree that has more below a directory, or other bytes in its files, and is the
  same everywhere else.
* `Making`: the steps in which directories are made; by `Making.new` what they add is the path and
  its ancestors (`Path.Ancestor`), by `Making.changedBelow` they stay below a directory without
  links.
-/

namespace CollectionDelta

/-- The path itself, or what is left of it without some of its last parts. -/
inductive Path.Ancestor : String → String → Prop
  | refl (path : String) : Ancestor path path
  | above {p parent path : String} (h : parent? path = some parent) (hp : Ancestor p parent) :
      Ancestor p path

def Node.isLink : Node → Bool
  | .link _ => true
  | .directory => false
  | .file _ => false

namespace FileTree

variable {t u v : FileTree} {path : String} {l l' lo : Location} {way : Location}

/-! ## Directories at the end of paths -/

structure LeadsTo (t : FileTree) (path : String) (l : Location) : Prop where
  leads : ∃ k, Leads t maxLinks (t.startOf path) (Path.parts path) k l
  directory : t.node? l = some .directory

theorem leadsTo_of_locateDirectory (h : t.locateDirectory path = .ok l) : t.LeadsTo path l := by
  obtain ⟨-, hleads, hl⟩ := locateDirectory_eq_ok_iff.1 h
  exact ⟨hleads, hl⟩

theorem LeadsTo.locateDirectory (h : t.LeadsTo path l) (hcheck : checkPath path = .ok ()) :
    t.locateDirectory path = .ok l := locateDirectory_eq_ok_iff.2 ⟨hcheck, h.leads, h.directory⟩

theorem LeadsTo.unique (h : t.LeadsTo path l) (h' : t.LeadsTo path l') : l = l' := by
  obtain ⟨k, hk⟩ := h.leads
  obtain ⟨k', hk'⟩ := h'.leads
  exact Except.ok.inj ((hk.walk .fails).symm.trans (hk'.walk .fails))

theorem Retains.trans (h : t.Retains u) (h' : u.Retains v) : t.Retains v where
  directory hl := h'.directory (h.directory hl)
  link hl := h'.link (h.link hl)
  file hl := by
    obtain ⟨b, hb⟩ := h.file hl
    exact h'.file hb

theorem Extends.retains (h : t.Extends u) : t.Retains u :=
  ⟨h.node?_eq, h.node?_eq, fun hb => ⟨_, h.node?_eq hb⟩⟩

theorem Leads.retain {k k' : Nat} {ps : List Part} (h : Leads t k l ps k' l') (hu : t.Retains u) :
    ∃ k'', Leads u k l ps k'' l' := by
  have hend : Missing.fails = .allowed → ∃ b, u.node? l' = some (.file b) := nofun
  exact leads_of_walk_retains hu hend (h.walk .fails)

theorem LeadsTo.retain (h : t.LeadsTo path l) (hu : t.Retains u)
    (hcurrent : u.current = t.current) : u.LeadsTo path l := by
  obtain ⟨k, hk⟩ := h.leads
  refine ⟨?_, hu.directory h.directory⟩
  rw [startOf, hcurrent]
  exact hk.retain hu

/-- Paths lead where they did when only bytes of files have changed. -/
theorem Retains.locate (h : t.Retains u) (hcurrent : u.current = t.current)
    (hl : t.locate path = .ok l) : u.locate path = .ok l := by
  obtain ⟨hcheck, ⟨k, hk⟩, hslash⟩ := locate_eq_ok_iff.1 hl
  refine locate_eq_ok_iff.2 ⟨hcheck, ?_, fun hends => h.directory (hslash hends)⟩
  rw [startOf, hcurrent]
  exact hk.retain h

theorem LeadsTo.extend (h : t.LeadsTo path l) (hu : t.Extends u) : u.LeadsTo path l :=
  h.retain hu.retains hu.current_eq

theorem LeadsTo.stem (h : t.LeadsTo path l) :
    t.Stem (Path.isAbsolute path) (Path.essential path) l := by
  obtain ⟨k, hk⟩ := h.leads
  exact ⟨Path.trim_essential path, ⟨k, hk.skip (skips_essential path)⟩, h.directory⟩

/-! ## Below a directory without links -/

/-- No link stands at the location or below it. -/
def LinkFree (t : FileTree) (l : Location) : Prop :=
  ∀ way target, t.node? (l ++ way) ≠ some (.link target)

theorem linkFree_root (h : ∀ e ∈ t.entries, e.2.isLink = false) : t.LinkFree [] := by
  intro way target hlink
  rw [List.nil_append] at hlink
  have hway : way ≠ [] := by
    rintro rfl
    rw [node?_root] at hlink
    cases hlink
  exact Bool.noConfusion (h _ (mem_of_node? hway hlink))

theorem LinkFree.append (h : t.LinkFree l) (way : Location) : t.LinkFree (l ++ way) := by
  intro way' target
  rw [List.append_assoc]
  exact h (way ++ way') target

theorem Empty.linkFree (h : t.Empty path l) : t.LinkFree l := by
  intro way target hlink
  by_cases hway : way = []
  · rw [hway, List.append_nil, (locateDirectory_eq_ok_iff.1 h.locate).2.2] at hlink
    cases hlink
  · rw [h.below hway] at hlink
    cases hlink

/-- Without links, names lead down. -/
theorem LinkFree.walk_names (h : t.LinkFree l) {m : Missing} {k : Nat} {ts : List String}
    (hwalk : t.walk m k l (ts.map .down) = .ok l') : l' = l ++ .ofTexts ts := by
  induction ts generalizing l with
  | nil =>
    rw [List.map_nil, walk_nil] at hwalk
    rw [Location.ofTexts, List.map_nil, List.append_nil, Except.ok.inj hwalk]
  | cons s ts ih =>
    have hcons : l ++ Location.ofTexts (s :: ts) = l ++ [.text s] ++ .ofTexts ts := by
      simp [Location.ofTexts]
    rw [List.map_cons, walk_cons] at hwalk
    split at hwalk
    · cases hwalk
    · dsimp only at hwalk
      split at hwalk
      · cases hwalk
      · split at hwalk
        · split at hwalk
          · next hlast =>
            have hts : ts = [] := List.map_eq_nil_iff.1 hlast.1
            rw [hts, ← Except.ok.inj hwalk]
            rfl
          · cases hwalk
        · next target hlink => exact absurd hlink (h [.text s] target)
        · rw [hcons]
          exact ih (h.append [.text s]) hwalk

/-- From the tree `t` to the tree `u`, entries have come below the location, and files there have
got other bytes. Nothing is gone, no link is new, and all else is as it was. -/
structure ChangedBelow (l : Location) (t u : FileTree) : Prop where
  retains : t.Retains u
  current_eq : u.current = t.current
  within : ∀ {l'}, u.node? l' ≠ t.node? l' → ∃ way, way ≠ [] ∧ l' = l ++ way
  link_of_link : ∀ {l' target}, u.node? l' = some (.link target) → t.node? l' = some (.link target)

theorem ChangedBelow.refl (l : Location) (t : FileTree) : ChangedBelow l t t :=
  ⟨.refl t, rfl, fun h => absurd rfl h, id⟩

theorem ChangedBelow.trans (h : ChangedBelow l t u) (h' : ChangedBelow l u v) :
    ChangedBelow l t v where
  retains := h.retains.trans h'.retains
  current_eq := h'.current_eq.trans h.current_eq
  within := by
    intro l' hne
    by_cases hu : v.node? l' = u.node? l'
    · exact h.within (hu ▸ hne)
    · exact h'.within hu
  link_of_link hv := h.link_of_link (h'.link_of_link hv)

theorem LinkFree.of_changedBelow (h : t.LinkFree l) (hu : ChangedBelow lo t u) : u.LinkFree l :=
  fun way target hlink => h way target (hu.link_of_link hlink)

theorem LeadsTo.of_changedBelow (h : t.LeadsTo path l) (hu : ChangedBelow lo t u) :
    u.LeadsTo path l := h.retain hu.retains hu.current_eq

theorem changedBelow_set_directory (hway : way ≠ []) (hnone : t.node? (l ++ way) = none) :
    ChangedBelow l t (t.set (l ++ way) .directory) := by
  have hne : l ++ way ≠ [] := List.append_ne_nil_of_right_ne_nil l hway
  have hext : t.Extends (t.set (l ++ way) .directory) := .set hne hnone _
  refine ⟨hext.retains, rfl, fun {l'} hl' => ⟨way, hway, ?_⟩, fun {l' target} hl' => ?_⟩
  · rw [node?_set t hne] at hl'
    by_contra hne'
    exact hl' (if_neg hne')
  · rw [node?_set t hne] at hl'
    split at hl'
    · cases hl'
    · exact hl'

theorem changedBelow_set_file (hway : way ≠ []) (hdir : t.node? (l ++ way) ≠ some .directory)
    (hfree : t.LinkFree l) (b : Bytes) : ChangedBelow l t (t.set (l ++ way) (.file b)) := by
  have hne : l ++ way ≠ [] := List.append_ne_nil_of_right_ne_nil l hway
  have hset := node?_set t hne
  refine ⟨⟨fun {x} hx => ?_, fun {x target} hx => ?_, fun {x b'} hx => ?_⟩, rfl,
    fun {x} hx => ⟨way, hway, ?_⟩, fun {x target} hx => ?_⟩
  · have hxl : x ≠ l ++ way := fun heq => hdir (heq ▸ hx)
    rw [hset, if_neg hxl, hx]
  · have hxl : x ≠ l ++ way := fun heq => hfree way target (heq ▸ hx)
    rw [hset, if_neg hxl, hx]
  · rw [hset]
    split
    · exact ⟨b, rfl⟩
    · exact ⟨b', hx⟩
  · rw [hset] at hx
    by_contra hne'
    exact hx (if_neg hne')
  · rw [hset] at hx
    split at hx
    · cases hx
    · exact hx

/-! ## New directories -/

/-- A directory that is there or has been made is where its path leads. -/
theorem leadsTo_of_ensureDirectory (h : t.ensureDirectory path = .ok u) :
    checkPath path = .ok () ∧ ∃ l, u.LeadsTo path l ∧
      ∀ {l'}, u.node? l' ≠ t.node? l' → l' = l ∧ t.node? l' = none := by
  unfold ensureDirectory at h
  split at h
  · next w hw =>
    cases h
    have hext : t.Extends u := .of_makeDirectory hw
    obtain ⟨hcheck, ps, name, k, l, hparts, hleads, hl, hsize, hnone, rfl⟩ :=
      makeDirectory_eq_ok_iff.1 hw
    have hne : l ++ [.text name] ≠ [] := List.append_ne_nil_of_right_ne_nil l (by simp)
    have hnode := node?_set t hne
    have hnew : (t.set (l ++ [.text name]) .directory).node? (l ++ [.text name]) =
        some .directory := by rw [hnode, if_pos rfl]
    refine ⟨hcheck, l ++ [.text name], ⟨⟨k, ?_⟩, hnew⟩, fun {l'} hl' => ?_⟩
    · rw [hparts]
      exact (hleads.extend hext).append (.down (hext.node?_eq hl) hsize hnew nofun .done)
    · rw [hnode] at hl'
      by_cases heq : l' = l ++ [.text name]
      · exact ⟨heq, heq ▸ hnone⟩
      · exact absurd (if_neg heq) hl'
  · split at h
    · next hdir =>
      cases h
      obtain ⟨l, hl⟩ := isDirectory_eq_true_iff.1 hdir
      exact ⟨(locateDirectory_eq_ok_iff.1 hl).1, l, leadsTo_of_locateDirectory hl,
        fun hne => absurd rfl hne⟩
    · cases h

/-- How directories are made: those above the path, if the path itself cannot be made, and then the
path; the making can end after each of them. -/
inductive Making (t : FileTree) : String → FileTree → Prop
  | start (path : String) : Making t path t
  | above {path parent : String} {u : FileTree} {f : Fault}
      (hf : t.ensureDirectory path = .error f) (hparent : Path.parent? path = some parent)
      (h : Making t parent u) : Making t path u
  | last {path : String} {u v : FileTree} (h : Making t path u)
      (hv : u.ensureDirectory path = .ok v) : Making t path v

theorem making_makeDirectoriesWithin (t : FileTree) (path : String) (depth : Nat) :
    t.Making path (t.makeDirectoriesWithin path depth).2 := by
  induction depth generalizing path with
  | zero => exact .start path
  | succ depth ih =>
    unfold makeDirectoriesWithin
    split
    · exact .start path
    · split
      · next u hu => exact (Making.start path).last hu
      · next f hf =>
        split
        · exact .start path
        · split
          · exact .start path
          · next parent hparent =>
            have habove := Making.above hf hparent (ih parent)
            split
            · next e u hu => rwa [hu] at habove
            · next u hu =>
              rw [hu] at habove
              split
              · next v hv => exact habove.last hv
              · exact habove

theorem Making.extends (h : t.Making path u) : t.Extends u := by
  induction h with
  | start => exact .refl t
  | above _ _ _ ih => exact ih
  | last _ hv ih => exact ih.trans (.of_ensureDirectory hv)

/-- What is new where directories are made is the path or one of its ancestors. -/
theorem Making.new (h : t.Making path u) (hl : u.node? l ≠ t.node? l) :
    t.node? l = none ∧ ∃ p, Path.Ancestor p path ∧ u.LeadsTo p l := by
  induction h with
  | start => exact absurd rfl hl
  | above _ hparent _ ih =>
    obtain ⟨hnone, p, hp, hleads⟩ := ih hl
    exact ⟨hnone, p, .above hparent hp, hleads⟩
  | @last path u v h hv ih =>
    have hext : u.Extends v := .of_ensureDirectory hv
    by_cases heq : v.node? l = u.node? l
    · obtain ⟨hnone, p, hp, hleads⟩ := ih (heq ▸ hl)
      exact ⟨hnone, p, hp, hleads.extend hext⟩
    · obtain ⟨-, l', hleads, hnew⟩ := leadsTo_of_ensureDirectory hv
      obtain ⟨rfl, hnone⟩ := hnew heq
      refine ⟨Option.eq_none_iff_forall_ne_some.2 fun n hn => ?_, path, .refl path, hleads⟩
      rw [h.extends.node?_eq hn] at hnone
      cases hnone

/-- Directories that have been made are where their path leads. -/
theorem leadsTo_of_makeDirectories (ht : t.WellFormed) (h : t.makeDirectories path = (.ok (), u)) :
    (path ≠ "" → checkPath path = .ok ()) ∧ ∃ l, u.LeadsTo path l := by
  rw [makeDirectories, makeDirectoriesWithin] at h
  split at h
  · next hempty =>
    cases h
    refine ⟨fun hne => absurd hempty hne, t.current, ⟨maxLinks, ?_⟩, ht.current⟩
    rw [hempty]
    exact .done
  · have hdone : ∀ {w : FileTree}, w.ensureDirectory path = .ok u →
        (path ≠ "" → checkPath path = .ok ()) ∧ ∃ l, u.LeadsTo path l := by
      intro w hw
      obtain ⟨hcheck, l, hl, -⟩ := leadsTo_of_ensureDirectory hw
      exact ⟨fun _ => hcheck, l, hl⟩
    split at h
    · next w hw =>
      cases h
      exact hdone hw
    · split at h
      · cases h
      · split at h
        · cases h
        · split at h
          · cases h
          · split at h
            · next w hw =>
              cases h
              exact hdone hw
            · cases h

/-! ## New directories below a directory without links -/

variable {absolute : Bool} {es ts : List String}

theorem Stem.retain (h : t.Stem absolute es lo) (hu : t.Retains u)
    (hcurrent : u.current = t.current) : u.Stem absolute es lo where
  trim := h.trim
  leads := by
    obtain ⟨k, hk⟩ := h.leads
    rw [hcurrent]
    exact hk.retain hu
  directory := hu.directory h.directory

theorem Stem.ensureDirectory_self (h : t.Stem absolute es lo)
    (hcheck : checkPath (Path.ofParts absolute es) = .ok ()) :
    t.ensureDirectory (Path.ofParts absolute es) = .ok t := by
  have hpath : t.PathBelow (Path.ofParts absolute (es ++ [])) lo [] :=
    h.pathBelow (by simp) (by simp) (by rwa [List.append_nil])
  rw [List.append_nil] at hpath
  exact ensureDirectory_existing (hpath.locateDirectory (way_nil h.directory))

/-- A directory that is made below the stem of its path comes to lie there. -/
theorem Stem.changedBelow_ensureDirectory (h : t.Stem absolute es lo) (hfree : t.LinkFree lo)
    (hts : ∀ p ∈ ts, Path.Plain p)
    (hu : t.ensureDirectory (Path.ofParts absolute (es ++ ts)) = .ok u) :
    ChangedBelow lo t u := by
  rcases List.eq_nil_or_concat' ts with rfl | ⟨ts, s, rfl⟩
  · have hcheck := (leadsTo_of_ensureDirectory hu).1
    rw [List.append_nil] at hu hcheck
    rw [h.ensureDirectory_self hcheck] at hu
    cases hu
    exact .refl lo t
  · unfold ensureDirectory at hu
    split at hu
    · next w hw =>
      cases hu
      obtain ⟨-, ps, name, k, l, hparts, hleads, -, -, hnone, rfl⟩ := makeDirectory_eq_ok_iff.1 hw
      have htrim := h.trim.append hts
      have hsplit : Path.parts (Path.ofParts absolute (es ++ (ts ++ [s]))) =
          es.map Path.part ++ ts.map .down ++ [.down s] := by
        rw [Path.parts_ofParts htrim, List.map_append, Path.map_part_plain hts, List.map_append,
          ← List.append_assoc]
        rfl
      rw [hsplit] at hparts
      obtain ⟨rfl, hname⟩ := List.append_inj' hparts rfl
      obtain ⟨k', hk'⟩ := h.leads
      have hwalk := hleads.walk .fails
      rw [startOf, Path.isAbsolute_ofParts htrim, hk'.walk_append] at hwalk
      have hl := hfree.walk_names hwalk
      rw [hl, List.append_assoc] at hnone ⊢
      exact changedBelow_set_directory (by simp) hnone
    · split at hu
      · cases hu
        exact .refl lo t
      · cases hu

theorem Making.changedBelow (h : t.Making path u)
    (hpath : path = Path.ofParts absolute (es ++ ts)) (hstem : t.Stem absolute es lo)
    (hfree : t.LinkFree lo)
    (hcheck : Path.ofParts absolute es ≠ "" → checkPath (Path.ofParts absolute es) = .ok ())
    (hts : ∀ p ∈ ts, Path.Plain p) : ChangedBelow lo t u := by
  induction h generalizing ts with
  | start => exact .refl lo t
  | @above path parent u f hf hparent h ih =>
    subst hpath
    rcases List.eq_nil_or_concat' ts with rfl | ⟨ts, s, rfl⟩
    · rw [List.append_nil] at hf hparent
      have hempty : Path.ofParts absolute es ≠ "" := fun hempty => by
        rw [hempty] at hparent
        cases hparent
      rw [hstem.ensureDirectory_self (hcheck hempty)] at hf
      cases hf
    · refine ih ?_ fun p hp => hts p (List.mem_append_left [s] hp)
      rw [Path.parent?_ofParts (hstem.trim.append hts) (by simp), ← List.append_assoc,
        List.dropLast_concat] at hparent
      exact (Option.some.inj hparent).symm
  | last h hv ih =>
    subst hpath
    have hchanged := ih rfl hts
    have hstem' := hstem.retain hchanged.retains hchanged.current_eq
    exact hchanged.trans
      (hstem'.changedBelow_ensureDirectory (hfree.of_changedBelow hchanged) hts hv)

end FileTree
end CollectionDelta
