import CollectionDelta.Proofs.Directory.Files
import CollectionDelta.Proofs.FileTree.Walk

/-!
What a scan of a directory finds, in whatever order the system lists the entries.

* `FileTree.Reached`: a directory and a path to it, which may be too long for the system.
* `Directory.PathsFit`: the path of each directory that is reached is short enough.
* `Directory.Legible`: this, and all names below are texts; `Directory.Obstacle`: what a scan meets
  if that is not so.
* `Directory.scan_scanned`: a scan names all files below a legible directory, each once, or else it
  fails with an obstacle that is there.
-/

namespace CollectionDelta

open FileTree (Leads Enumeration maxLinks maxPath checkPath)

/-! ## Paths that a scan takes -/

namespace FileTree

/-- The path leads to a directory, unless it is too long. -/
structure Reached (t : FileTree) (dir : String) (l : Location) : Prop where
  no_nul : '\x00' ∉ dir.toList
  nonempty : dir ≠ ""
  leads : ∃ k, Leads t maxLinks (t.startOf dir) (Path.parts dir) k l
  directory : t.node? l = some .directory

variable {t : FileTree} {dir s : String} {l : Location}

theorem reached_of_locateDirectory (h : t.locateDirectory dir = .ok l) : t.Reached dir l := by
  obtain ⟨hcheck, hleads, hl⟩ := locateDirectory_eq_ok_iff.1 h
  obtain ⟨hnul, hempty, -⟩ := checkPath_eq_ok_iff.1 hcheck
  exact ⟨hnul, hempty, hleads, hl⟩

theorem Reached.locateDirectory (h : t.Reached dir l) (hsize : dir.utf8ByteSize ≤ maxPath) :
    t.locateDirectory dir = .ok l :=
  locateDirectory_eq_ok_iff.2
    ⟨checkPath_eq_ok_iff.2 ⟨h.no_nul, h.nonempty, hsize⟩, h.leads, h.directory⟩

theorem Reached.locateDirectory_tooLong (h : t.Reached dir l)
    (hsize : maxPath < dir.utf8ByteSize) : t.locateDirectory dir = .error .nameTooLong := by
  have hcheck : checkPath dir = .error .nameTooLong := by
    rw [checkPath, if_neg (by simpa using h.no_nul), if_neg h.nonempty, if_pos hsize]
  simp only [FileTree.locateDirectory, locate, hcheck, bind, Except.bind]

/-- A directory in a directory is reached by its name. -/
theorem Reached.entered (h : t.Reached dir l) (ht : t.WellFormed)
    (hn : t.node? (l ++ [.text s]) = some .directory) :
    t.Reached (Path.join dir s) (l ++ [.text s]) := by
  obtain ⟨hplain, hnul, hsize⟩ := ht.allowed_entry hn
  obtain ⟨k, hleads⟩ := h.leads
  have hname : Path.PlainName s := by
    intro p hp
    rw [Path.split_of_no_slash hplain.no_slash, List.mem_singleton] at hp
    exact hp ▸ hplain
  have hparts : Path.parts (Path.join dir s) = Path.parts dir ++ [.down s] := by
    rw [Path.parts_join, hname.parts_eq, Path.split_of_no_slash hplain.no_slash]
    rfl
  refine ⟨Path.nul_not_mem_join h.no_nul fun p hp => ?_, by simp [Path.join, h.nonempty], ⟨k, ?_⟩,
    hn⟩
  · rw [Path.split_of_no_slash hplain.no_slash, List.mem_singleton] at hp
    exact hp ▸ hnul
  · rw [hparts, startOf, Path.isAbsolute_join h.nonempty]
    exact hleads.append (.down h.directory hsize hn (fun _ hlink => by cases hlink) .done)

end FileTree

theorem Path.size_lt_join (dir : String) {s : String} (h : s ≠ "") :
    dir.utf8ByteSize < (Path.join dir s).utf8ByteSize := by
  have hpos : 0 < s.utf8ByteSize := by
    rw [Nat.pos_iff_ne_zero]
    exact fun hzero => h (String.utf8ByteSize_eq_zero_iff.1 hzero)
  rw [Path.join, String.utf8ByteSize_append, String.utf8ByteSize_append]
  omega

/-! ## Scans -/

namespace Directory

/-- The path of something below a root. -/
def pathOf (root below : String) : String := if below = "" then root else Path.join root below

variable {t : FileTree} {dir before s : String} {l : Location}

theorem intercalate_ne_empty {p : String} (hp : p ≠ "") (ts : List String) :
    "/".intercalate (p :: ts) ≠ "" := by
  by_cases hts : ts = []
  · rwa [hts, String.intercalate_singleton]
  · rw [String.intercalate_cons_of_ne_nil hts]
    simp [hp]

theorem pathOf_join (hs : Path.Plain s) {ts : List String} (hts : ∀ p ∈ ts, Path.Plain p)
    (dir : String) :
    pathOf (Path.join dir s) ("/".intercalate ts) = pathOf dir ("/".intercalate (s :: ts)) := by
  cases ts with
  | nil => simp [pathOf, hs.ne.1]
  | cons p ts =>
    have hp := (hts p (List.mem_cons_self ..)).ne.1
    rw [pathOf, if_neg (intercalate_ne_empty hp ts), pathOf,
      if_neg (intercalate_ne_empty hs.ne.1 (p :: ts)),
      String.intercalate_cons_of_ne_nil (List.cons_ne_nil p ts), Path.join_join hs]

theorem nameBelow_nameBelow (hs : s ≠ "") (before name : String) :
    nameBelow (nameBelow before s) name = nameBelow before (s ++ "/" ++ name) := by
  have hne : nameBelow before s ≠ "" := by
    rw [nameBelow]
    split <;> simp [hs]
  rw [nameBelow, if_neg hne, nameBelow, nameBelow]
  split
  · rfl
  · simp only [String.append_assoc]

/-- The path of each directory that is reached by texts, the first one included, is one that the
system takes. -/
def PathsFit (t : FileTree) (l : Location) (dir : String) : Prop :=
  ∀ ts, t.node? (l ++ .ofTexts ts) = some .directory →
    (pathOf dir ("/".intercalate ts)).utf8ByteSize ≤ maxPath

/-- All names below a directory are texts, and the paths of the directories there fit. -/
structure Legible (t : FileTree) (l : Location) (dir : String) : Prop where
  texts : ∀ {way n}, t.node? (l ++ way) = some n → ∃ ts, way = Location.ofTexts ts
  fits : PathsFit t l dir

/-- What a scan can meet: a name that is no text in a directory that is reached, and a directory of
which the path is too long. -/
inductive Obstacle (t : FileTree) (l : Location) (dir : String) : Fault → Prop
  | notText {ts : List String} {b : Bytes} {n : Node}
      (hn : t.node? (l ++ (Location.ofTexts ts ++ [.binary b])) = some n) :
      Obstacle t l dir (notText (pathOf dir ("/".intercalate ts)))
  | tooLong {ts : List String} (hn : t.node? (l ++ .ofTexts ts) = some .directory)
      (hlong : maxPath < (pathOf dir ("/".intercalate ts)).utf8ByteSize) :
      Obstacle t l dir .nameTooLong

theorem Legible.not_obstacle {f : Fault} (h : Legible t l dir) : ¬Obstacle t l dir f := by
  rintro (⟨hn⟩ | ⟨hn, hlong⟩)
  · obtain ⟨ts, heq⟩ := h.texts hn
    have hmem := heq ▸ List.mem_append_right _ (List.mem_singleton_self (EntryName.binary _))
    obtain ⟨s, -, hs⟩ := List.mem_map.1 hmem
    cases hs
  · exact absurd (h.fits _ hn) (Nat.not_le.2 hlong)

theorem Obstacle.up {f : Fault} (h : t.WellFormed)
    (hf : Obstacle t (l ++ [.text s]) (Path.join dir s) f) : Obstacle t l dir f := by
  cases hf with
  | @notText ts b n hn =>
    have hcons : l ++ [.text s] ++ (Location.ofTexts ts ++ [.binary b]) =
        l ++ (Location.ofTexts (s :: ts) ++ [.binary b]) := by simp [Location.ofTexts]
    rw [hcons] at hn
    have hplain : ∀ p ∈ s :: ts, Path.Plain p := by
      intro p hp
      have hmem : EntryName.text p ∈ l ++ (Location.ofTexts (s :: ts) ++ [.binary b]) :=
        List.mem_append_right l (List.mem_append_left _ (List.mem_map_of_mem hp))
      exact (h.allowed_of_node? hn _ hmem).1
    rw [pathOf_join (hplain s (List.mem_cons_self ..)) fun p hp =>
      hplain p (List.mem_cons_of_mem s hp)]
    exact .notText hn
  | @tooLong ts hn hlong =>
    have hcons : l ++ [.text s] ++ Location.ofTexts ts = l ++ Location.ofTexts (s :: ts) := by
      simp [Location.ofTexts]
    rw [hcons] at hn
    have hplain := fun p hp => (h.allowed_below hn p hp).1
    rw [pathOf_join (hplain s (List.mem_cons_self ..)) fun p hp =>
      hplain p (List.mem_cons_of_mem s hp)] at hlong
    exact .tooLong hn hlong

/-- The outcomes of a scan of a directory. -/
inductive Scanned (t : FileTree) (l : Location) (dir before : String) :
    Except Fault (List String) → Prop
  | named {names : List String} (hlegible : Legible t l dir)
      (hnames : names.Perm ((files t l).map fun way => nameBelow before (textOf way))) :
      Scanned t l dir before (.ok names)
  | met {f : Fault} (hf : Obstacle t l dir f) : Scanned t l dir before (.error f)

/-- The outcomes of a scan of some entries of a directory. -/
inductive ScannedEach (t : FileTree) (l : Location) (dir before : String)
    (es : List (EntryName × Node)) : Except Fault (List String) → Prop
  | named {names : List String}
      (hlegible : ∀ e ∈ es, ∃ s, e.1 = .text s ∧
        (e.2 = .directory → Legible t (l ++ [.text s]) (Path.join dir s)))
      (hnames : names.Perm
        ((es.flatMap (filesAt t l)).map fun way => nameBelow before (textOf way))) :
      ScannedEach t l dir before es (.ok names)
  | met {f : Fault} (hf : Obstacle t l dir f) : ScannedEach t l dir before es (.error f)

theorem ScannedEach.single {n : Node} {names : List String}
    (hlegible : n = .directory → Legible t (l ++ [.text s]) (Path.join dir s))
    (hnames : names.Perm
      ((filesAt t l (.text s, n)).map fun way => nameBelow before (textOf way))) :
    ScannedEach t l dir before [(.text s, n)] (.ok names) := by
  refine .named (fun e he => ?_) ?_
  · rw [List.mem_singleton.1 he]
    exact ⟨s, rfl, hlegible⟩
  · rwa [List.flatMap_singleton]

theorem ScannedEach.cons {e : EntryName × Node} {es : List (EntryName × Node)}
    {found more : List String} (h : ScannedEach t l dir before [e] (.ok found))
    (h' : ScannedEach t l dir before es (.ok more)) :
    ScannedEach t l dir before (e :: es) (.ok (found ++ more)) := by
  obtain ⟨hlegible, hnames⟩ := h
  obtain ⟨hlegible', hnames'⟩ := h'
  refine .named (List.forall_mem_cons.2 ⟨hlegible e (List.mem_singleton_self e), hlegible'⟩) ?_
  rw [List.flatMap_cons, List.map_append]
  rw [List.flatMap_singleton] at hnames
  exact hnames.append hnames'

/-- Names below an entry are those below its directory, after the name of the entry. -/
theorem names_below_entry (hl : t.node? (l ++ [.text s]) = some .directory) (h : t.WellFormed)
    (hlegible : Legible t (l ++ [.text s]) dir) (before : String) :
    ((files t (l ++ [.text s])).map fun way => nameBelow (nameBelow before s) (textOf way)) =
      (filesAt t l (.text s, .directory)).map fun way => nameBelow before (textOf way) := by
  rw [filesAt, List.map_map]
  refine List.map_congr_left fun way hway => ?_
  obtain ⟨b, hb⟩ := (mem_files h hl).1 hway
  obtain ⟨ts, rfl⟩ := hlegible.texts hb
  have hne : ts ≠ [] := by
    rintro rfl
    rw [Location.ofTexts, List.map_nil, List.append_nil, hl] at hb
    cases hb
  have hs := (h.allowed_entry hl).1.ne.1
  have hcons : EntryName.text s :: Location.ofTexts ts = Location.ofTexts (s :: ts) := rfl
  rw [nameBelow_nameBelow hs, Function.comp_apply, hcons, Location.textOf_ofTexts,
    Location.textOf_ofTexts, String.intercalate_cons_of_ne_nil hne]

section Entries

variable {enter : String → String → Traced Fault (List String)}

theorem scanEntry_scanned (h : t.WellFormed) {n : Node} (hn : t.node? (l ++ [.text s]) = some n)
    (henter : n = .directory → Scanned t (l ++ [.text s]) (Path.join dir s) (nameBelow before s)
      (enter (Path.join dir s) (nameBelow before s)).result) :
    ScannedEach t l dir before [(.text s, n)]
      (scanEntry enter (Path.join dir s) (nameBelow before s) n).result := by
  cases n with
  | directory =>
    have hscan := henter rfl
    rw [scanEntry]
    generalize (enter (Path.join dir s) (nameBelow before s)).result = r at hscan
    cases hscan with
    | named hlegible hnames =>
      exact .single (fun _ => hlegible) (names_below_entry hn h hlegible before ▸ hnames)
    | met hf => exact .met (hf.up h)
  | file b =>
    have htext : textOf [.text s] = s := by
      rw [← String.intercalate_singleton (s := "/") (t := s), ← Location.textOf_ofTexts]
      rfl
    refine .single (fun hdir => by cases hdir) ?_
    rw [filesAt, List.map_singleton, htext]
  | link target => exact .single (fun hdir => by cases hdir) (.refl _)

theorem scanEach_scanned (h : t.WellFormed)
    (henter : ∀ {s}, t.node? (l ++ [.text s]) = some .directory →
      Scanned t (l ++ [.text s]) (Path.join dir s) (nameBelow before s)
        (enter (Path.join dir s) (nameBelow before s)).result)
    {es : List (EntryName × Node)} (hes : ∀ e ∈ es, t.node? (l ++ [e.1]) = some e.2) :
    ScannedEach t l dir before es (scanEach enter dir before es).result := by
  induction es with
  | nil => exact .named nofun (.refl _)
  | cons e es ih =>
    obtain ⟨hn, hrest⟩ := List.forall_mem_cons.1 hes
    obtain ⟨x, n⟩ := e
    cases x with
    | binary b =>
      have hf : Obstacle t l dir (notText (pathOf dir ("/".intercalate []))) := .notText hn
      rw [String.intercalate_nil, pathOf, if_pos rfl] at hf
      exact .met hf
    | text s =>
      have hentry := scanEntry_scanned h hn fun heq => henter (heq ▸ hn)
      have hmore := ih hrest
      simp only [scanEach, Traced.result_bind, Traced.pure_result]
      generalize (scanEntry enter (Path.join dir s) (nameBelow before s) n).result = r at hentry
      generalize (scanEach enter dir before es).result = r' at hmore
      cases hentry with
      | met hf => exact .met hf
      | named hlegible hnames =>
        cases hmore with
        | met hf => exact .met hf
        | named hlegible' hnames' => exact .cons (.named hlegible hnames) (.named hlegible' hnames')

end Entries

/-- A directory is legible if each of its entries is. -/
theorem legible_of_entries (h : t.WellFormed) (hsize : dir.utf8ByteSize ≤ maxPath)
    (hentries : ∀ x n, t.node? (l ++ [x]) = some n → ∃ s, x = .text s ∧
      (n = .directory → Legible t (l ++ [.text s]) (Path.join dir s))) : Legible t l dir := by
  have hbelow : ∀ {x way n}, t.node? (l ++ x :: way) = some n → ∃ s, x = .text s ∧
      (way = [] ∨ Legible t (l ++ [.text s]) (Path.join dir s)) := by
    intro x way n hn
    by_cases hway : way = []
    · obtain ⟨s, rfl, -⟩ := hentries x n (hway ▸ hn)
      exact ⟨s, rfl, .inl hway⟩
    · rw [List.append_cons] at hn
      obtain ⟨s, rfl, hlegible⟩ := hentries x _ (h.directory_above hway hn)
      exact ⟨s, rfl, .inr (hlegible rfl)⟩
  constructor
  · intro way n hn
    cases way with
    | nil => exact ⟨[], rfl⟩
    | cons x way =>
      obtain ⟨s, rfl, rfl | hlegible⟩ := hbelow hn
      · exact ⟨[s], rfl⟩
      · rw [List.append_cons] at hn
        obtain ⟨ts, rfl⟩ := hlegible.texts hn
        exact ⟨s :: ts, rfl⟩
  · intro ts hn
    cases ts with
    | nil =>
      rw [String.intercalate_nil, pathOf, if_pos rfl]
      exact hsize
    | cons s ts =>
      have hplain := fun p hp => (h.allowed_below hn p hp).1
      have hs : t.node? (l ++ [.text s]) = some .directory := by
        by_cases hts : Location.ofTexts ts = []
        · rwa [Location.ofTexts, List.map_cons, ← Location.ofTexts, hts] at hn
        · rw [Location.ofTexts, List.map_cons, List.append_cons] at hn
          exact h.directory_above hts hn
      have hdir : Legible t (l ++ [.text s]) (Path.join dir s) := by
        obtain ⟨_, heq, hlegible⟩ := hentries (.text s) .directory hs
        cases heq
        exact hlegible rfl
      rw [← pathOf_join (hplain s (List.mem_cons_self ..)) fun p hp =>
        hplain p (List.mem_cons_of_mem s hp)]
      refine hdir.fits _ ?_
      rwa [Location.ofTexts, List.map_cons, List.append_cons] at hn

theorem obstacle_of_tooLong (hdir : t.Reached dir l) (hlong : maxPath < dir.utf8ByteSize) :
    Obstacle t l dir .nameTooLong := by
  have hl : t.node? (l ++ Location.ofTexts []) = some .directory := by
    rw [Location.ofTexts, List.map_nil, List.append_nil]
    exact hdir.directory
  refine .tooLong hl ?_
  rwa [String.intercalate_nil, pathOf, if_pos rfl]

/-- The depth is enough as long as a path may become longer by it than the system takes. -/
theorem scan_scanned (h : t.WellFormed) (order : Enumeration t) {depth : Nat}
    (hdir : t.Reached dir l) (hdepth : maxPath < dir.utf8ByteSize + depth) :
    Scanned t l dir before (scan t order depth dir before).result := by
  induction depth generalizing l dir before with
  | zero => exact .met (obstacle_of_tooLong hdir hdepth)
  | succ depth ih =>
    rw [scan, Traced.result_bind, Traced.result_ofExcept, FileTree.listDirectory]
    by_cases hsize : dir.utf8ByteSize ≤ maxPath
    · rw [hdir.locateDirectory hsize]
      have heach : ScannedEach t l dir before (order.entries l)
          (scanEach (scan t order depth) dir before (order.entries l)).result := by
        refine scanEach_scanned h (fun {s} hn => ?_) fun e he => (h.mem_entries order).1 he
        refine ih (hdir.entered h hn) ?_
        have hs := (h.allowed_entry hn).1.ne.1
        have hlonger := Path.size_lt_join dir hs
        omega
      show Scanned t l dir before (scanEach (scan t order depth) dir before _).result
      generalize (scanEach (scan t order depth) dir before (order.entries l)).result = r at heach
      cases heach with
      | met hf => exact .met hf
      | named hlegible hnames =>
        refine .named (legible_of_entries h hsize fun x n hn => ?_) ?_
        · exact hlegible (x, n) ((h.mem_entries order).2 hn)
        · exact hnames.trans ((files_perm h hdir.directory order).map _).symm
    · rw [hdir.locateDirectory_tooLong (Nat.lt_of_not_le hsize)]
      exact .met (obstacle_of_tooLong hdir (Nat.lt_of_not_le hsize))

end Directory
end CollectionDelta
