import CollectionDelta.Proofs.FileTree.WellFormed

/-!
Where paths lead.

* `Leads`: a way along parts that finds an entry at each of them, with the links that it may still
  meet; `leads_of_walk`, `Leads.walk_append` say that walks take just these ways.
* `Retains`, `leads_of_walk_retains`: a walk takes the same way in a tree with other files.
* `Leads.append`: ways one after another.
* `Skips`, `Leads.skip`: parts that stay may be left out; `essential_of_parts` says which are left of
  a path that ends in names.
* `Extends`, `Leads.extend`: a way is still there when entries have been added.
* `leads_down`: the way to something below a directory.
* `locate_eq_ok_iff`, `locateDirectory_eq_ok_iff`: paths that lead somewhere.
-/

namespace CollectionDelta.FileTree

variable {t u : FileTree}

/-- From the location `l` the parts lead to `l'`, by entries that are there; of `k` links that may
be met, `k'` are left. -/
inductive Leads (t : FileTree) : Nat → Location → List Part → Nat → Location → Prop
  | done {k : Nat} {l : Location} : Leads t k l [] k l
  | here {k k' : Nat} {l l' : Location} {ps : List Part} (hl : t.node? l = some .directory)
      (h : Leads t k l ps k' l') : Leads t k l (.here :: ps) k' l'
  | up {k k' : Nat} {l l' : Location} {ps : List Part} (hl : t.node? l = some .directory)
      (h : Leads t k l.dropLast ps k' l') : Leads t k l (.up :: ps) k' l'
  | down {k k' : Nat} {l l' : Location} {ps : List Part} {name : String} {n : Node}
      (hl : t.node? l = some .directory) (hsize : name.utf8ByteSize ≤ maxEntryName)
      (hn : t.node? (l ++ [.text name]) = some n) (hlink : ∀ target, n ≠ .link target)
      (h : Leads t k (l ++ [.text name]) ps k' l') : Leads t k l (.down name :: ps) k' l'
  | link {k k' : Nat} {l l' : Location} {ps : List Part} {name target : String}
      (hl : t.node? l = some .directory) (hsize : name.utf8ByteSize ≤ maxEntryName)
      (hn : t.node? (l ++ [.text name]) = some (.link target))
      (h : Leads t k (if Path.isAbsolute target then [] else l) (Path.parts target ++ ps) k' l') :
      Leads t (k + 1) l (.down name :: ps) k' l'

/-! ## Ways and walks -/

/-- How a walk goes on from a link. -/
def followed (t : FileTree) (m : Missing) : Nat → Location → List Part → Except Fault Location
  | 0 => fun _ _ => .error .tooManyLinks
  | k + 1 => t.walk m k

theorem walk_eq (t : FileTree) (m : Missing) (k : Nat) :
    t.walk m k = t.walkBy m (t.followed m k) := by
  cases k <;> rfl

theorem walk_nil (t : FileTree) (m : Missing) (k : Nat) (l : Location) :
    t.walk m k l [] = .ok l := by
  rw [walk_eq]
  rfl

/-- One part of a walk. -/
theorem walk_cons (t : FileTree) (m : Missing) (k : Nat) (l : Location) (p : Part)
    (ps : List Part) : t.walk m k l (p :: ps) =
      if t.node? l ≠ some .directory then .error .notADirectory else
      match p with
      | .here => t.walk m k l ps
      | .up => t.walk m k l.dropLast ps
      | .down name =>
        if maxEntryName < name.utf8ByteSize then .error .nameTooLong else
        match t.node? (l ++ [.text name]) with
        | none => if ps = [] ∧ m = .allowed then .ok (l ++ [.text name]) else .error .noSuchFile
        | some (.link target) =>
          t.followed m k (if Path.isAbsolute target then [] else l) (Path.parts target ++ ps)
        | some _ => t.walk m k (l ++ [.text name]) ps := by
  rw [walk_eq]
  exact walkBy.eq_def ..

/-- Directories and links of `t` are in `u`, and so are its files, though with any bytes. -/
structure Retains (t u : FileTree) : Prop where
  directory : ∀ {l}, t.node? l = some .directory → u.node? l = some .directory
  link : ∀ {l target}, t.node? l = some (.link target) → u.node? l = some (.link target)
  file : ∀ {l b}, t.node? l = some (.file b) → ∃ b', u.node? l = some (.file b')

theorem Retains.refl (t : FileTree) : t.Retains t := ⟨id, id, fun hb => ⟨_, hb⟩⟩

/-- A walk takes a way, also in a tree where the entry is there that it allows to be missing. -/
theorem leads_of_walkBy {m : Missing} {k : Nat} {l l' : Location} {ps : List Part}
    {follow : Location → List Part → Except Fault Location} (hu : t.Retains u)
    (hend : m = .allowed → ∃ b, u.node? l' = some (.file b))
    (hfollow : ∀ start rest, follow start rest = .ok l' →
      ∃ j k', k = j + 1 ∧ Leads u j start rest k' l')
    (h : t.walkBy m follow l ps = .ok l') : ∃ k', Leads u k l ps k' l' := by
  fun_induction walkBy t m follow l ps with
  | case1 l => cases h; exact ⟨k, .done⟩
  | case2 => cases h
  | case3 l ps hl ih =>
    obtain ⟨k', hk'⟩ := ih h
    exact ⟨k', .here (hu.directory (Classical.not_not.1 hl)) hk'⟩
  | case4 l ps hl ih =>
    obtain ⟨k', hk'⟩ := ih h
    exact ⟨k', .up (hu.directory (Classical.not_not.1 hl)) hk'⟩
  | case5 => cases h
  | case6 l ps hl name hsize next hn hlast =>
    obtain ⟨rfl, hm⟩ := hlast
    obtain ⟨b, hb⟩ := hend hm
    rw [← Except.ok.inj h] at hb ⊢
    exact ⟨k, .down (hu.directory (Classical.not_not.1 hl)) (Nat.le_of_not_lt hsize) hb nofun .done⟩
  | case7 => cases h
  | case8 l ps hl name hsize next target hn =>
    obtain ⟨j, k', rfl, hk'⟩ := hfollow _ _ h
    exact ⟨k', .link (hu.directory (Classical.not_not.1 hl)) (Nat.le_of_not_lt hsize) (hu.link hn)
      hk'⟩
  | case9 l ps hl name hsize next n hlink hn ih =>
    obtain ⟨k', hk'⟩ := ih h
    have hl := hu.directory (Classical.not_not.1 hl)
    have hsize := Nat.le_of_not_lt hsize
    cases n with
    | link target => exact absurd rfl (hlink target)
    | directory => exact ⟨k', .down hl hsize (hu.directory hn) nofun hk'⟩
    | file b =>
      obtain ⟨b', hb'⟩ := hu.file hn
      exact ⟨k', .down hl hsize hb' nofun hk'⟩

theorem leads_of_walk_retains {m : Missing} {k : Nat} {l l' : Location} {ps : List Part}
    (hu : t.Retains u) (hend : m = .allowed → ∃ b, u.node? l' = some (.file b))
    (h : t.walk m k l ps = .ok l') : ∃ k', Leads u k l ps k' l' := by
  induction k generalizing l ps with
  | zero =>
    refine leads_of_walkBy hu hend (fun start rest hrest => ?_) h
    cases hrest
  | succ k ih =>
    refine leads_of_walkBy hu hend (fun start rest hrest => ?_) h
    obtain ⟨k', hk'⟩ := ih hrest
    exact ⟨k, k', rfl, hk'⟩

theorem leads_of_walk {k : Nat} {l l' : Location} {ps : List Part}
    (h : t.walk .fails k l ps = .ok l') : ∃ k', Leads t k l ps k' l' := by
  have hend : Missing.fails = .allowed → ∃ b, t.node? l' = some (.file b) := nofun
  exact leads_of_walk_retains (.refl t) hend h

/-- A walk goes on from where the first parts lead, whatever it does about a missing last part. -/
theorem Leads.walk_append {k k' : Nat} {l l' : Location} {ps : List Part}
    (h : Leads t k l ps k' l') (m : Missing) (qs : List Part) :
    t.walk m k l (ps ++ qs) = t.walk m k' l' qs := by
  generalize hqs : qs = rest
  induction h with
  | done => rfl
  | here hl _ ih => rw [List.cons_append, walk_cons, if_neg (not_not_intro hl), ih]
  | up hl _ ih => rw [List.cons_append, walk_cons, if_neg (not_not_intro hl), ih]
  | @down k k' l l' ps name n hl hsize hn hlink _ ih =>
    rw [List.cons_append, walk_cons, if_neg (not_not_intro hl)]
    simp only [if_neg (Nat.not_lt.2 hsize), hn]
    cases n with
    | link target => exact absurd rfl (hlink target)
    | directory => exact ih
    | file b => exact ih
  | @link k k' l l' ps name target hl hsize hn _ ih =>
    rw [List.cons_append, walk_cons, if_neg (not_not_intro hl)]
    simp only [if_neg (Nat.not_lt.2 hsize), hn]
    rw [List.append_assoc] at ih
    exact ih

theorem Leads.walk {k k' : Nat} {l l' : Location} {ps : List Part} (h : Leads t k l ps k' l')
    (m : Missing) : t.walk m k l ps = .ok l' := by
  have hend := h.walk_append m []
  rwa [List.append_nil, walk_nil] at hend

/-- At a name that is not there a walk ends. -/
theorem walk_missing {k : Nat} {l : Location} {name : String} {ps : List Part} (m : Missing)
    (hl : t.node? l = some .directory) (hsize : name.utf8ByteSize ≤ maxEntryName)
    (hn : t.node? (l ++ [.text name]) = none) : t.walk m k l (.down name :: ps) =
      if ps = [] ∧ m = .allowed then .ok (l ++ [.text name]) else .error .noSuchFile := by
  rw [walk_cons, if_neg (not_not_intro hl)]
  simp only [if_neg (Nat.not_lt.2 hsize), hn]

/-! ## Ways one after another -/

theorem Leads.append {k k' k'' : Nat} {l l' l'' : Location} {ps qs : List Part}
    (h : Leads t k l ps k' l') (h' : Leads t k' l' qs k'' l'') :
    Leads t k l (ps ++ qs) k'' l'' := by
  induction h with
  | done => exact h'
  | here hl _ ih => exact .here hl (ih h')
  | up hl _ ih => exact .up hl (ih h')
  | down hl hsize hn hlink _ ih => exact .down hl hsize hn hlink (ih h')
  | link hl hsize hn _ ih =>
    have hrest := ih h'
    rw [List.append_assoc] at hrest
    exact .link hl hsize hn hrest

/-! ## Parts that stay -/

/-- The parts `qs` are the parts `ps` less some that stay where they are. -/
inductive Skips : List Part → List Part → Prop
  | nil : Skips [] []
  | keep {ps qs : List Part} (p : Part) (h : Skips ps qs) : Skips (p :: ps) (p :: qs)
  | skip {ps qs : List Part} (h : Skips ps qs) : Skips (.here :: ps) qs

theorem Skips.refl (ps : List Part) : Skips ps ps := by
  induction ps with
  | nil => exact .nil
  | cons p ps ih => exact .keep p ih

theorem Skips.append {ps qs ps' qs' : List Part} (h : Skips ps qs) (h' : Skips ps' qs') :
    Skips (ps ++ ps') (qs ++ qs') := by
  induction h with
  | nil => exact h'
  | keep p _ ih => exact .keep p ih
  | skip _ ih => exact .skip ih

theorem skips_filter (ps : List String) : Skips ((ps.filter (· ≠ "")).map Path.part)
    ((ps.filter fun p => p ≠ "" ∧ p ≠ ".").map Path.part) := by
  induction ps with
  | nil => exact .nil
  | cons p ps ih =>
    by_cases hempty : p = ""
    · simpa [hempty] using ih
    · by_cases hdot : p = "."
      · simpa [hdot, Path.part] using Skips.skip ih
      · simpa [hempty, hdot] using Skips.keep (Path.part p) ih

/-- A path leads where its parts that count do. -/
theorem skips_essential (path : String) :
    Skips (Path.parts path) ((Path.essential path).map Path.part) := by
  obtain ⟨p, ps, hsplit⟩ := List.exists_cons_of_ne_nil (Path.split_ne_nil path)
  rw [Path.essential_eq, Path.parts, hsplit, Path.leadingDot_cons]
  by_cases hdot : p = "."
  · simpa [hdot] using Skips.keep (Path.part ".") (skips_filter ps)
  · simpa [hdot] using skips_filter (p :: ps)

/-- The names that a path ends in all count. -/
theorem Skips.of_append_down {ps rs : List Part} {ts : List String}
    (h : Skips (ps ++ ts.map .down) rs) : ∃ qs, rs = qs ++ ts.map .down ∧ Skips ps qs := by
  induction ps generalizing rs with
  | nil =>
    refine ⟨[], ?_, .nil⟩
    induction ts generalizing rs with
    | nil => cases h; rfl
    | cons s ts ih =>
      cases h with
      | keep _ h => rw [ih h]; rfl
  | cons p ps ih =>
    cases h with
    | keep _ h =>
      obtain ⟨qs, rfl, hqs⟩ := ih h
      exact ⟨p :: qs, rfl, .keep p hqs⟩
    | skip h =>
      obtain ⟨qs, hrs, hqs⟩ := ih h
      exact ⟨qs, hrs, .skip hqs⟩

/-- The parts of a path that count, if it ends in names. -/
theorem essential_of_parts {path : String} {front : List Part} {ts : List String}
    (h : Path.parts path = front ++ ts.map .down) :
    ∃ es, Path.essential path = es ++ ts ∧ Skips front (es.map Path.part) := by
  have hskips := skips_essential path
  rw [h] at hskips
  obtain ⟨qs, hqs, hfront⟩ := hskips.of_append_down
  obtain ⟨es, names, hessential, rfl, hnames⟩ := List.map_eq_append_iff.1 hqs
  rw [Path.eq_of_map_part hnames] at hessential
  exact ⟨es, hessential, hfront⟩

theorem Leads.skip {k k' : Nat} {l l' : Location} {ps qs : List Part} (h : Leads t k l ps k' l')
    (hs : Skips ps qs) : Leads t k l qs k' l' := by
  induction h generalizing qs with
  | done => cases hs; exact .done
  | here hl _ ih =>
    cases hs with
    | keep _ hs => exact .here hl (ih hs)
    | skip hs => exact ih hs
  | up hl _ ih =>
    cases hs with
    | keep _ hs => exact .up hl (ih hs)
  | down hl hsize hn hlink _ ih =>
    cases hs with
    | keep _ hs => exact .down hl hsize hn hlink (ih hs)
  | link hl hsize hn _ ih =>
    cases hs with
    | keep _ hs => exact .link hl hsize hn (ih ((Skips.refl _).append hs))

/-! ## Trees with more entries -/

/-- Nothing is lost or changed from one tree to the other. -/
structure Extends (t u : FileTree) : Prop where
  node?_eq : ∀ {l : Location} {n : Node}, t.node? l = some n → u.node? l = some n
  current_eq : u.current = t.current

theorem Extends.refl (t : FileTree) : t.Extends t := ⟨id, rfl⟩

theorem Extends.trans {v : FileTree} (h : t.Extends u) (h' : u.Extends v) : t.Extends v :=
  ⟨fun hn => h'.node?_eq (h.node?_eq hn), h'.current_eq.trans h.current_eq⟩

theorem Leads.extend {k k' : Nat} {l l' : Location} {ps : List Part} (h : Leads t k l ps k' l')
    (hu : t.Extends u) : Leads u k l ps k' l' := by
  induction h with
  | done => exact .done
  | here hl _ ih => exact .here (hu.node?_eq hl) ih
  | up hl _ ih => exact .up (hu.node?_eq hl) ih
  | down hl hsize hn hlink _ ih =>
    exact .down (hu.node?_eq hl) hsize (hu.node?_eq hn) hlink ih
  | link hl hsize hn _ ih => exact .link (hu.node?_eq hl) hsize (hu.node?_eq hn) ih

/-! ## Below a directory -/

/-- Names lead down to whatever is no link, by the directories above it. -/
theorem leads_down {l : Location} {ts : List String} {n : Node} (k : Nat)
    (hsize : ∀ s ∈ ts, s.utf8ByteSize ≤ maxEntryName)
    (habove : ∀ ps qs, ts = ps ++ qs → qs ≠ [] →
      t.node? (l ++ Location.ofTexts ps) = some .directory)
    (hn : t.node? (l ++ Location.ofTexts ts) = some n) (hlink : ∀ target, n ≠ .link target) :
    Leads t k l (ts.map .down) k (l ++ Location.ofTexts ts) := by
  induction ts generalizing l with
  | nil =>
    have hnil : l ++ Location.ofTexts [] = l := List.append_nil l
    rw [hnil]
    exact .done
  | cons s ts ih =>
    have hl : t.node? l = some .directory := by
      simpa [Location.ofTexts] using habove [] (s :: ts) rfl (List.cons_ne_nil s ts)
    have hcons : ∀ ps, l ++ Location.ofTexts (s :: ps) = l ++ [.text s] ++ Location.ofTexts ps :=
      fun ps => by simp [Location.ofTexts]
    have habove' : ∀ ps qs, ts = ps ++ qs → qs ≠ [] →
        t.node? (l ++ [.text s] ++ Location.ofTexts ps) = some .directory := by
      intro ps qs heq hqs
      rw [← hcons]
      exact habove (s :: ps) qs (by rw [heq, List.cons_append]) hqs
    rw [hcons] at hn ⊢
    have hrest := ih (fun q hq => hsize q (List.mem_cons_of_mem s hq)) habove' hn
    have hs := hsize s (List.mem_cons_self ..)
    by_cases hts : ts = []
    · subst hts
      have hnil : l ++ [.text s] ++ Location.ofTexts [] = l ++ [.text s] := List.append_nil _
      rw [hnil] at hn
      exact .down hl hs hn hlink hrest
    · have hdir : t.node? (l ++ [.text s]) = some .directory := by
        simpa [Location.ofTexts] using habove' [] ts rfl hts
      exact .down hl hs hdir nofun hrest

/-! ## Paths that lead somewhere -/

theorem checkPath_eq_ok_iff {path : String} : checkPath path = .ok () ↔
    '\x00' ∉ path.toList ∧ path ≠ "" ∧ path.utf8ByteSize ≤ maxPath := by
  unfold checkPath
  split
  · next h =>
    have h : '\x00' ∈ path.toList := by simpa using h
    simp [h]
  · next h =>
    split
    · next h' => simp [h']
    · next h' =>
      split
      · next h'' => simp [Nat.not_le.2 h'']
      · next h'' =>
        have h : '\x00' ∉ path.toList := by simpa using h
        simp [h, h', Nat.le_of_not_lt h'']

theorem locate_eq_ok_iff {path : String} {l : Location} : t.locate path = .ok l ↔
    checkPath path = .ok () ∧ (∃ k, Leads t maxLinks (t.startOf path) (Path.parts path) k l) ∧
      (Path.endsInSlash path = true → t.node? l = some .directory) := by
  unfold locate
  cases hcheck : checkPath path with
  | error f => simp [bind, Except.bind]
  | ok u =>
    cases hwalk : walk t .fails maxLinks (t.startOf path) (Path.parts path) with
    | error f =>
      simp only [bind, Except.bind, true_and, reduceCtorEq, false_iff, not_and]
      rintro ⟨k, hk⟩
      rw [hk.walk] at hwalk
      cases hwalk
    | ok l' =>
      have hends : (∃ k, Leads t maxLinks (t.startOf path) (Path.parts path) k l) ↔ l' = l := by
        constructor
        · rintro ⟨k, hk⟩
          rw [hk.walk] at hwalk
          exact (Except.ok.inj hwalk).symm
        · rintro rfl
          exact leads_of_walk hwalk
      rw [hends]
      simp only [bind, Except.bind, true_and]
      split
      · next hslash =>
        simp only [reduceCtorEq, false_iff, not_and]
        rintro rfl hdir
        exact hslash.2 (hdir hslash.1)
      · next hslash =>
        simp only [pure, Except.pure, Except.ok.injEq, iff_self_and]
        rintro rfl hends
        exact Classical.byContradiction fun hdir => hslash ⟨hends, hdir⟩

theorem locateDirectory_eq_ok_iff {path : String} {l : Location} :
    t.locateDirectory path = .ok l ↔ checkPath path = .ok () ∧
      (∃ k, Leads t maxLinks (t.startOf path) (Path.parts path) k l) ∧
      t.node? l = some .directory := by
  have hlocate : t.locateDirectory path = .ok l ↔
      t.locate path = .ok l ∧ t.node? l = some .directory := by
    unfold locateDirectory
    cases t.locate path with
    | error f => simp [bind, Except.bind]
    | ok l' =>
      by_cases hdir : t.node? l' = some .directory
      · simp only [bind, Except.bind, if_pos hdir, pure, Except.pure, Except.ok.injEq]
        constructor
        · rintro rfl
          exact ⟨rfl, hdir⟩
        · exact fun h => h.1
      · simp only [bind, Except.bind, if_neg hdir, reduceCtorEq, Except.ok.injEq, false_iff]
        rintro ⟨rfl, hdir'⟩
        exact hdir hdir'
  rw [hlocate, locate_eq_ok_iff, and_assoc, and_assoc]
  refine and_congr_right fun _ => and_congr_right fun _ => ?_
  exact ⟨fun h => h.2, fun h => ⟨fun _ => h, h⟩⟩

theorem Extends.locateDirectory {path : String} {l : Location} (hu : t.Extends u)
    (h : t.locateDirectory path = .ok l) : u.locateDirectory path = .ok l := by
  obtain ⟨hcheck, ⟨k, hleads⟩, hl⟩ := locateDirectory_eq_ok_iff.1 h
  refine locateDirectory_eq_ok_iff.2 ⟨hcheck, ⟨k, ?_⟩, hu.node?_eq hl⟩
  rw [startOf, hu.current_eq]
  exact hleads.extend hu

theorem readFile_of_locate {path : String} {b : Bytes} {l : Location} (h : t.locate path = .ok l)
    (hb : t.node? l = some (.file b)) : t.readFile path = .ok b := by
  simp only [readFile, stat, h, bind, Except.bind, hb, pure, Except.pure]

theorem openFile_of_locate {path : String} {b : Bytes} {l : Location} (h : t.locate path = .ok l)
    (hb : t.node? l = some (.file b)) : t.openFile path = .ok (.ofBytes b) := by
  simp only [openFile, stat, h, bind, Except.bind, hb, pure, Except.pure]

theorem openFile_of_readFile {path : String} {b : Bytes} (h : t.readFile path = .ok b) :
    t.openFile path = .ok (.ofBytes b) := by
  unfold readFile at h
  unfold openFile
  cases hstat : t.stat path with
  | error f => simp [hstat, bind, Except.bind] at h
  | ok n =>
    rw [hstat] at h
    cases n with
    | file b' =>
      cases h
      rfl
    | directory => cases h
    | link target => cases h

end CollectionDelta.FileTree
