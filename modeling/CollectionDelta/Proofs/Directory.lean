import CollectionDelta.Proofs.Directory.Scan
import CollectionDelta.Proofs.Names

/-!
What a directory lists, and what of it can be read.

* `Directory.listing`: the names of the files below a location, in order.
* `Directory.openBy_cases`: when a directory can be opened, in whatever order its entries come;
  `Directory.Opened`: a directory as its opening finds it.
* `FileTree.WellFormed.locate_below`: where the path of a file below a root leads, also when entries
  have been added since.
* `Directory.Opened.served`: how a listed file is served.
* `Directory.listed_name_served`: which of the listed names are, and with which bytes.
-/

namespace CollectionDelta

open FileTree (Extends Enumeration maxPath checkPath)

/-! ## Opening a directory -/

namespace Directory

/-- A directory as its opening finds it: what is below is legible, and the files are listed. -/
structure Opened (t : FileTree) (l : Location) (d : Directory) : Prop where
  locate : t.locateDirectory d.root = .ok l
  legible : Legible t l d.root
  mem_names : ∀ {name}, name ∈ d.names ↔ ∃ b, t.node? (l ++ .ofName name) = some (.file b)
  ascending : Ascending d.names
  length_le : d.names.length ≤ t.entries.length
  closed : d.closed = false

variable {t : FileTree} {root : String} {l : Location} {d : Directory}

/-- The names of the files below a location, in order. -/
def listing (t : FileTree) (l : Location) : List String :=
  ((files t l).map textOf).mergeSort Collection.nameLe

/-- The way to a file is that of its name. -/
theorem Legible.way_eq_ofName (hlegible : Legible t l root) (h : t.WellFormed)
    (hl : t.node? l = some .directory) {way : Location} {b : Bytes}
    (hb : t.node? (l ++ way) = some (.file b)) : way = .ofName (textOf way) := by
  obtain ⟨ts, rfl⟩ := hlegible.texts hb
  refine h.ofTexts_eq_ofName ?_ hb
  rintro rfl
  rw [Location.ofTexts, List.map_nil, List.append_nil, hl] at hb
  cases hb

/-- Ways to different files have different names. -/
theorem Legible.nodup_names (hlegible : Legible t l root) (h : t.WellFormed)
    (hl : t.node? l = some .directory) : ((files t l).map textOf).Nodup := by
  refine (nodup_files h l).map_on fun way hway way' hway' heq => ?_
  obtain ⟨b, hb⟩ := (mem_files h hl).1 hway
  obtain ⟨b', hb'⟩ := (mem_files h hl).1 hway'
  rw [hlegible.way_eq_ofName h hl hb, heq, ← hlegible.way_eq_ofName h hl hb']

theorem mem_listing (h : t.WellFormed) (hl : t.node? l = some .directory) {name : String} :
    name ∈ listing t l ↔ ∃ way b, t.node? (l ++ way) = some (.file b) ∧ name = textOf way := by
  rw [listing, List.mem_mergeSort, List.mem_map]
  constructor
  · rintro ⟨way, hway, rfl⟩
    obtain ⟨b, hb⟩ := (mem_files h hl).1 hway
    exact ⟨way, b, hb, rfl⟩
  · rintro ⟨way, b, hb, rfl⟩
    exact ⟨way, (mem_files h hl).2 ⟨b, hb⟩, rfl⟩

theorem result_openBy (t : FileTree) (order : Enumeration t) (root : String) :
    (openBy t order root).result = (scan t order (maxPath + 1) root "").result.map fun names =>
      ⟨root, names.mergeSort Collection.nameLe, false⟩ := by
  simp only [openBy, Traced.result_bind]
  cases (scan t order (maxPath + 1) root "").result with
  | error f => rfl
  | ok names => rfl

theorem openBy_of_locate_error {f : Fault} (order : Enumeration t)
    (hlocate : t.locateDirectory root = .error f) : (openBy t order root).result = .error f := by
  rw [result_openBy, scan, Traced.result_bind, Traced.result_ofExcept, FileTree.listDirectory,
    hlocate]
  rfl

/-- A directory that is there is opened if what is below is legible; else it fails with an obstacle
that is there. -/
theorem openBy_cases (h : t.WellFormed) (order : Enumeration t)
    (hlocate : t.locateDirectory root = .ok l) :
    (Legible t l root ∧ (openBy t order root).result = .ok ⟨root, listing t l, false⟩) ∨
      ∃ f, Obstacle t l root f ∧ (openBy t order root).result = .error f := by
  have hreached := FileTree.reached_of_locateDirectory hlocate
  have hscanned : Scanned t l root "" (scan t order (maxPath + 1) root "").result :=
    scan_scanned h order hreached (by omega)
  rw [result_openBy]
  generalize (scan t order (maxPath + 1) root "").result = r at hscanned
  cases hscanned with
  | met hf => exact .inr ⟨_, hf, rfl⟩
  | @named names hlegible hnames =>
    have hnames : names.Perm ((files t l).map textOf) := hnames
    have hnodup := hlegible.nodup_names h hreached.directory
    have hsorted : names.mergeSort Collection.nameLe = listing t l := by
      refine (ascending_mergeSort (hnames.nodup_iff.2 hnodup)).eq_of_mem_iff
        (ascending_mergeSort hnodup) fun name => ?_
      rw [listing, List.mem_mergeSort, List.mem_mergeSort, hnames.mem_iff]
    exact .inl ⟨hlegible, by rw [Except.map, hsorted]⟩

theorem openBy_of_legible (h : t.WellFormed) (order : Enumeration t)
    (hlocate : t.locateDirectory root = .ok l) (hlegible : Legible t l root) :
    (openBy t order root).result = .ok ⟨root, listing t l, false⟩ := by
  obtain ⟨-, hok⟩ | ⟨f, hf, -⟩ := openBy_cases h order hlocate
  · exact hok
  · exact absurd hf hlegible.not_obstacle

theorem Legible.opened (hlegible : Legible t l root) (h : t.WellFormed)
    (hlocate : t.locateDirectory root = .ok l) : Opened t l ⟨root, listing t l, false⟩ := by
  have hl := (FileTree.locateDirectory_eq_ok_iff.1 hlocate).2.2
  refine ⟨hlocate, hlegible, fun {name} => ?_, ascending_mergeSort (hlegible.nodup_names h hl), ?_,
    rfl⟩
  · rw [mem_listing h hl]
    constructor
    · rintro ⟨way, b, hb, rfl⟩
      exact ⟨b, hlegible.way_eq_ofName h hl hb ▸ hb⟩
    · rintro ⟨b, hb⟩
      exact ⟨_, b, hb, (Location.textOf_ofName name).symm⟩
  · rw [listing, List.length_mergeSort, List.length_map]
    exact Nat.le_trans (List.length_filterMap_le _ _) (List.length_filterMap_le _ _)

theorem opened_of_openAt (h : t.WellFormed) (hopen : (openAt t root).result = .ok d) :
    d.root = root ∧ ∃ l, Opened t l d := by
  rw [openAt] at hopen
  cases hlocate : t.locateDirectory root with
  | error f =>
    rw [openBy_of_locate_error _ hlocate] at hopen
    cases hopen
  | ok l =>
    obtain ⟨hlegible, hok⟩ | ⟨f, -, hf⟩ := openBy_cases h (.stored t) hlocate
    · cases Except.ok.inj (hopen.symm.trans hok)
      exact ⟨rfl, l, hlegible.opened h hlocate⟩
    · rw [hf] at hopen
      cases hopen

theorem Opened.directory (hd : Opened t l d) : t.node? l = some .directory :=
  (FileTree.locateDirectory_eq_ok_iff.1 hd.locate).2.2

/-- The way to a file is that of a listed name. -/
theorem Opened.exists_name (hd : Opened t l d) (h : t.WellFormed) {way : Location} {b : Bytes}
    (hb : t.node? (l ++ way) = some (.file b)) : ∃ name ∈ d.names, way = .ofName name := by
  obtain ⟨ts, rfl⟩ := hd.legible.texts hb
  have hne : ts ≠ [] := by
    rintro rfl
    rw [Location.ofTexts, List.map_nil, List.append_nil, hd.directory] at hb
    cases hb
  have hway := h.ofTexts_eq_ofName hne hb
  rw [hway] at hb
  exact ⟨_, hd.mem_names.2 ⟨b, hb⟩, hway⟩

end Directory

/-! ## Reading below a root -/

/-- A file below a directory is where its path leads, also when entries have been added since. -/
theorem FileTree.WellFormed.locate_below {t u : FileTree} {root name : String} {l : Location}
    {b : Bytes} (h : t.WellFormed) (hlocate : t.locateDirectory root = .ok l)
    (hb : t.node? (l ++ .ofName name) = some (.file b)) (hu : t.Extends u)
    (hsize : (Path.join root name).utf8ByteSize ≤ maxPath) :
    u.locate (Path.join root name) = .ok (l ++ .ofName name) := by
  obtain ⟨hcheck, ⟨k, hleads⟩, hl⟩ := locateDirectory_eq_ok_iff.1 hlocate
  obtain ⟨hnul, hempty, -⟩ := checkPath_eq_ok_iff.1 hcheck
  have hallowed := h.allowed_below hb
  have hplain := h.plainName hb
  have hdown := leads_down k (fun p hp => (hallowed p hp).2.2) ?_ hb nofun
  · have hstart : u.startOf (Path.join root name) = t.startOf root := by
      rw [startOf, startOf, Path.isAbsolute_join hempty, hu.current_eq]
    refine locate_eq_ok_iff.2 ⟨checkPath_eq_ok_iff.2 ⟨?_, ?_, hsize⟩, ⟨k, ?_⟩, ?_⟩
    · exact Path.nul_not_mem_join hnul fun p hp => (hallowed p hp).2.1
    · simp [Path.join, hempty]
    · rw [hstart, Path.parts_join, hplain.parts_eq]
      exact (hleads.append hdown).extend hu
    · intro hslash
      rw [Path.endsInSlash_join root hplain] at hslash
      cases hslash
  · intro ps qs heq hqs
    have hqs : Location.ofTexts qs ≠ [] := by simpa [Location.ofTexts] using hqs
    rw [Location.ofName, heq, Location.ofTexts_append, ← List.append_assoc] at hb
    exact h.directory_above hqs hb

/-! ## What is served -/

namespace Directory

variable {t u : FileTree} {root name : String} {l : Location} {d : Directory} {b : Bytes}

/-- How a listed file is served as long as the directory is open, also when entries have been added
to the tree since. -/
theorem Opened.served (hd : Opened t l d) (h : t.WellFormed) (hu : t.Extends u)
    (hb : t.node? (l ++ .ofName name) = some (.file b))
    (hsize : (Path.join d.root name).utf8ByteSize ≤ maxPath) :
    (d.toCollection u).read name =
        (if '\\' ∈ name.toList then .error (ResourceName.invalid name) else .ok b) ∧
      (d.toCollection u).stream name =
        if '\\' ∈ name.toList then .error (ResourceName.invalid name) else .ok (.ofBytes b) := by
  have hpath := ResourceName.path_eq d.root (h.plainName hb)
  have hlocate := h.locate_below hd.locate hb hu hsize
  simp only [toCollection, guarded, hd.closed, hpath, Bool.false_eq_true, if_false]
  by_cases hslash : '\\' ∈ name.toList
  · simp only [if_pos hslash]
    exact ⟨rfl, rfl⟩
  · simp only [if_neg hslash]
    exact ⟨FileTree.readFile_of_locate hlocate (hu.node?_eq hb),
      FileTree.openFile_of_locate hlocate (hu.node?_eq hb)⟩

/-- Each listed name is that of a regular file below the root. It is served whole and as a stream
with the bytes of that file, unless there is a backslash in it, for which it is refused. -/
theorem listed_name_served (h : t.WellFormed) (hopen : (openAt t root).result = .ok d)
    (hname : name ∈ d.names) (hsize : (Path.join root name).utf8ByteSize ≤ maxPath) :
    ∃ l way b, t.locateDirectory root = .ok l ∧ t.node? (l ++ way) = some (.file b) ∧
      name = textOf way ∧
      ('\\' ∉ name.toList → (d.toCollection t).read name = .ok b ∧
        (d.toCollection t).stream name = .ok (.ofBytes b)) ∧
      ('\\' ∈ name.toList →
        (d.toCollection t).read name = .error (ResourceName.invalid name) ∧
        (d.toCollection t).stream name = .error (ResourceName.invalid name)) := by
  obtain ⟨rfl, l, hd⟩ := opened_of_openAt h hopen
  obtain ⟨b, hb⟩ := hd.mem_names.1 hname
  obtain ⟨hread, hstream⟩ := hd.served h (.refl t) hb hsize
  refine ⟨l, _, b, hd.locate, hb, (Location.textOf_ofName name).symm, fun hslash => ?_,
    fun hslash => ?_⟩
  · rw [hread, hstream, if_neg hslash, if_neg hslash]
    exact ⟨rfl, rfl⟩
  · rw [hread, hstream, if_pos hslash, if_pos hslash]
    exact ⟨rfl, rfl⟩

/-- The root is reached by a link, and the file lies one level down. -/
theorem listed_name_served_by_link :
    let t : FileTree := { entries :=
      [([.text "root"], .directory), ([.text "root", .text "sub"], .directory),
        ([.text "root", .text "sub", .text "a"], .file [1]), ([.text "link"], .link "./root")] }
    let d : Directory := ⟨"link", ["sub/a"], false⟩
    (openAt t "link").result = .ok d ∧
      ∃ l way b, t.locateDirectory "link" = .ok l ∧ t.node? (l ++ way) = some (.file b) ∧
        "sub/a" = textOf way ∧ (d.toCollection t).read "sub/a" = .ok b ∧
        (d.toCollection t).stream "sub/a" = .ok (.ofBytes b) := by
  intro t d
  have h : t.WellFormed := by decide +kernel
  have hopen : (openAt t "link").result = .ok d := by decide +kernel
  obtain ⟨l, way, b, hlocate, hb, hname, hserved, -⟩ := listed_name_served h hopen
    (List.mem_singleton_self _) (by decide)
  obtain ⟨hread, hstream⟩ := hserved (by decide)
  exact ⟨hopen, l, way, b, hlocate, hb, hname, hread, hstream⟩

/-- The scan lists a name for which nothing can be asked. -/
theorem backslash_listed_and_refused :
    let t : FileTree := { entries :=
      [([.text "root"], .directory), ([.text "root", .text "a\\b"], .file [1])] }
    let d : Directory := ⟨"root", ["a\\b"], false⟩
    t.WellFormed ∧ (openAt t "root").result = .ok d ∧ (d.toCollection t).names = .ok ["a\\b"] ∧
      t.readFile "root/a\\b" = .ok [1] ∧
      (d.toCollection t).read "a\\b" = .error (ResourceName.invalid "a\\b") ∧
      (d.toCollection t).stream "a\\b" = .error (ResourceName.invalid "a\\b") := by
  decide +kernel

end Directory
end CollectionDelta
