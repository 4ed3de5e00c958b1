import CollectionDelta.Proofs.Directory
import Mathlib.Data.List.Induction

/-!
What opening a directory gives, in whatever order the system lists the entries of each directory.

* `Directory.ForeignEntry`: a name that is no text, in a directory that is reached.
* `Directory.opened_in_any_order`: which names are listed, and when there is an error instead.
* `Directory.not_opened_by_long_root`: a directory of texts that is not opened, as the path to it is
  too long for what is below.
-/

namespace CollectionDelta

open FileTree (maxPath)

namespace Directory

variable {t : FileTree} {root : String} {l : Location}

/-- A directory that is reached, by texts, has an entry of which the name is no text. -/
def ForeignEntry (t : FileTree) (l : Location) : Prop :=
  ∃ ts b n, t.node? (l ++ (Location.ofTexts ts ++ [.binary b])) = some n

theorem texts_of_not_foreign (h : t.WellFormed) (hno : ¬ForeignEntry t l) {way : Location} {n : Node}
    (hn : t.node? (l ++ way) = some n) : ∃ ts, way = Location.ofTexts ts := by
  induction way using List.reverseRecOn generalizing n with
  | nil => exact ⟨[], rfl⟩
  | append_singleton front x ih =>
    have hfront := hn
    rw [← List.append_assoc] at hfront
    obtain ⟨ts, rfl⟩ := ih (h.directory_above (List.cons_ne_nil x []) hfront)
    cases x with
    | text s => exact ⟨ts ++ [s], by rw [Location.ofTexts_append]; rfl⟩
    | binary b => exact absurd ⟨ts, b, n, hn⟩ hno

theorem ForeignEntry.not_legible (hforeign : ForeignEntry t l) : ¬Legible t l root := by
  obtain ⟨ts, b, n, hn⟩ := hforeign
  exact fun hlegible => hlegible.not_obstacle (.notText hn)

/-- An obstacle is a name that is no text, unless a path does not fit. -/
theorem Obstacle.cases_kind {f : Fault} (hf : Obstacle t l root f) :
    (ForeignEntry t l ∧ f.kind = .invalidData) ∨ (¬PathsFit t l root ∧ f = .nameTooLong) := by
  cases hf with
  | notText hn => exact .inl ⟨⟨_, _, _, hn⟩, rfl⟩
  | tooLong hn hlong => exact .inr ⟨fun hfits => absurd (hfits _ hn) (Nat.not_le.2 hlong), rfl⟩

theorem not_foreign_of_below (h : t.WellFormed)
    (hall : ∀ e ∈ t.below l, ∀ x ∈ e.1, x.text?.isSome) : ¬ForeignEntry t l := by
  rintro ⟨ts, b, n, hn⟩
  have hmem := h.mem_below.2 ⟨List.append_ne_nil_of_right_ne_nil _ (List.cons_ne_nil _ []), hn⟩
  cases hall _ hmem (.binary b) (List.mem_append_right _ (List.mem_singleton_self _))

theorem pathsFit_of_below (h : t.WellFormed) (hroot : root.utf8ByteSize ≤ maxPath)
    (hall : ∀ e ∈ t.below l, e.2 = .directory →
      (pathOf root (textOf e.1)).utf8ByteSize ≤ maxPath) : PathsFit t l root := by
  intro ts hn
  by_cases hts : Location.ofTexts ts = []
  · rw [List.map_eq_nil_iff.1 hts, String.intercalate_nil, pathOf, if_pos rfl]
    exact hroot
  · have hfits := hall _ (h.mem_below.2 ⟨hts, hn⟩) rfl
    rwa [Location.textOf_ofTexts] at hfits

/-- A directory is opened exactly if the paths and the names are such as can be taken, and lists then
the regular files below it, by the names that lead to them without links. -/
theorem opened_in_any_order (h : t.WellFormed) (hlocate : t.locateDirectory root = .ok l) :
    (PathsFit t l root → ¬ForeignEntry t l → ∃ names, Ascending names ∧
      (∀ name, name ∈ names ↔ ∃ way b, t.node? (l ++ way) = some (.file b) ∧ name = textOf way) ∧
      ∀ order, (openBy t order root).result = .ok ⟨root, names, false⟩ ∧
        (toCollection t ⟨root, names, false⟩).names = .ok names) ∧
    (PathsFit t l root → ForeignEntry t l → ∀ order, ∃ f,
      (openBy t order root).result = .error f ∧ f.kind = .invalidData) ∧
    (¬PathsFit t l root → ∀ order, ∃ f, (openBy t order root).result = .error f ∧
      (f.kind = .invalidData ∨ f = .nameTooLong)) := by
  have hl := (FileTree.locateDirectory_eq_ok_iff.1 hlocate).2.2
  refine ⟨fun hfits hno => ?_, fun hfits hforeign order => ?_, fun hfits order => ?_⟩
  · have hlegible : Legible t l root := ⟨texts_of_not_foreign h hno, hfits⟩
    refine ⟨listing t l, (hlegible.opened h hlocate).ascending, fun name => mem_listing h hl,
      fun order => ⟨openBy_of_legible h order hlocate hlegible, rfl⟩⟩
  · obtain ⟨hlegible, -⟩ | ⟨f, hf, herror⟩ := openBy_cases h order hlocate
    · exact absurd hlegible hforeign.not_legible
    · obtain ⟨-, hkind⟩ | ⟨hlong, -⟩ := hf.cases_kind
      · exact ⟨f, herror, hkind⟩
      · exact absurd hfits hlong
  · obtain ⟨hlegible, -⟩ | ⟨f, hf, herror⟩ := openBy_cases h order hlocate
    · exact absurd hlegible.fits hfits
    · exact ⟨f, herror, hf.cases_kind.imp And.right And.right⟩

/-- Links to a file, to a directory and to nothing, and an empty directory; `a-b` comes before `a/b`,
though `a` comes before `a-b`. In another tree a directory is not named by a text. -/
theorem opened_in_any_order_with_links :
    let t : FileTree := { entries :=
      [([.text "r"], .directory), ([.text "r", .text "a"], .directory),
        ([.text "r", .text "a", .text "b"], .file [1]), ([.text "r", .text "a-b"], .file [2]),
        ([.text "r", .text "e"], .directory), ([.text "r", .text "f"], .link "a/b"),
        ([.text "r", .text "g"], .link "."), ([.text "r", .text "h"], .link "nowhere")] }
    let u : FileTree := { entries :=
      [([.text "r"], .directory), ([.text "r", .text "a"], .directory),
        ([.text "r", .text "a", .text "b"], .file [1]),
        ([.text "r", .text "a", .binary [0xff]], .directory)] }
    (∀ order, (openBy t order "r").result = .ok ⟨"r", ["a-b", "a/b"], false⟩) ∧
      ∀ order, ∃ f, (openBy u order "r").result = .error f ∧ f.kind = .invalidData := by
  intro t u
  have ht : t.WellFormed := by decide +kernel
  have hu : u.WellFormed := by decide +kernel
  have hlt : t.locateDirectory "r" = .ok [.text "r"] := by decide +kernel
  have hlu : u.locateDirectory "r" = .ok [.text "r"] := by decide +kernel
  obtain ⟨hlisted, -, -⟩ := opened_in_any_order ht hlt
  obtain ⟨-, hforeign, -⟩ := opened_in_any_order hu hlu
  refine ⟨?_, hforeign (pathsFit_of_below hu (by decide) (by decide +kernel))
    ⟨["a"], [0xff], .directory, by decide +kernel⟩⟩
  have hno : ¬ForeignEntry t [.text "r"] := not_foreign_of_below ht (by decide +kernel)
  obtain ⟨names, hascending, hnames, hopen⟩ :=
    hlisted (pathsFit_of_below ht (by decide) (by decide +kernel)) hno
  have hfiles : (files t [.text "r"]).map textOf = ["a/b", "a-b"] := by decide +kernel
  have heq : names = ["a-b", "a/b"] := by
    refine hascending.eq_of_mem_iff (by rw [Ascending]; decide +kernel) fun name => ?_
    rw [hnames, ← mem_listing ht (FileTree.locateDirectory_eq_ok_iff.1 hlt).2.2, listing, hfiles,
      List.mem_mergeSort, List.mem_pair, List.mem_pair, or_comm]
  exact heq ▸ fun order => (hopen order).1

end Directory

/-! ## A path that is longer than it needs to be -/

/-- A path with as many dots before it. -/
def Path.dotted (s : String) : Nat → String
  | 0 => s
  | k + 1 => join "." (dotted s k)

theorem Path.size_dotted (s : String) (k : Nat) :
    (dotted s k).utf8ByteSize = s.utf8ByteSize + 2 * k := by
  induction k with
  | zero => rfl
  | succ k ih =>
    have hdot : ("." ++ separator ".").utf8ByteSize = 2 := by decide
    rw [dotted, join, String.utf8ByteSize_append, hdot, ih]
    omega

/-- A dot leads from where a path starts to where it starts. -/
theorem FileTree.Reached.dotted {t : FileTree} {s : String} {l : Location} (h : t.Reached s l)
    (ht : t.WellFormed) (hrel : Path.isAbsolute s = false) (k : Nat) :
    t.Reached (Path.dotted s k) l ∧ Path.isAbsolute (Path.dotted s k) = false := by
  induction k with
  | zero => exact ⟨h, hrel⟩
  | succ k ih =>
    obtain ⟨hreached, hrel⟩ := ih
    obtain ⟨k', hleads⟩ := hreached.leads
    have hjoin : Path.dotted s (k + 1) = "./" ++ Path.dotted s k := by
      rw [Path.dotted, Path.join]
      rfl
    have hrel' : Path.isAbsolute (Path.dotted s (k + 1)) = false := by
      rw [Path.dotted, Path.isAbsolute_join (by decide)]
      rfl
    refine ⟨⟨?_, by simp [hjoin], ⟨k', ?_⟩, hreached.directory⟩, hrel'⟩
    · rw [hjoin, String.toList_append]
      simpa using hreached.no_nul
    · have hparts : Path.parts (Path.dotted s (k + 1)) = .here :: Path.parts (Path.dotted s k) := by
        rw [Path.dotted, Path.parts_join]
        rfl
      have hstart : t.startOf (Path.dotted s (k + 1)) = t.startOf (Path.dotted s k) := by
        rw [startOf, startOf, hrel, hrel']
      rw [hparts, hstart]
      exact .here (ht.directory_startOf _) hleads

namespace Directory

/-- The names and the tree are plain, and the root can be listed; but the path of the directory in
it, which starts with that of the root, is too long. -/
theorem not_opened_by_long_root :
    let d := String.ofList (List.replicate 100 'd')
    let t : FileTree := { entries :=
      [([.text "r"], .directory), ([.text "r", .text d], .directory),
        ([.text "r", .text d, .text "f"], .file [1])] }
    let root := Path.dotted "r" 2000
    t.WellFormed ∧ t.locateDirectory root = .ok [.text "r"] ∧ ¬ForeignEntry t [.text "r"] ∧
      ∀ order, (openBy t order root).result = .error .nameTooLong := by
  intro d t root
  have ht : t.WellFormed := by decide +kernel
  have hr : t.locateDirectory "r" = .ok [.text "r"] := by decide +kernel
  have hreached := ((FileTree.reached_of_locateDirectory hr).dotted ht (by decide) 2000).1
  have hsize : root.utf8ByteSize = 4001 := Path.size_dotted "r" 2000
  have hlocate : t.locateDirectory root = .ok [.text "r"] :=
    hreached.locateDirectory (by rw [hsize]; decide)
  have hno : ¬ForeignEntry t [.text "r"] := not_foreign_of_below ht (by decide +kernel)
  refine ⟨ht, hlocate, hno, fun order => ?_⟩
  have hd : t.node? ([.text "r"] ++ Location.ofTexts [d]) = some .directory := by decide +kernel
  have hlong : maxPath < (pathOf root ("/".intercalate [d])).utf8ByteSize := by
    have hdsize : d.utf8ByteSize = 100 := by decide +kernel
    have hne : d ≠ "" := by
      intro heq
      rw [heq] at hdsize
      cases hdsize
    rw [String.intercalate_singleton, pathOf, if_neg hne, Path.join, String.utf8ByteSize_append,
      String.utf8ByteSize_append, hsize, hdsize, maxPath]
    omega
  obtain ⟨hlegible, -⟩ | ⟨f, hf, herror⟩ := openBy_cases ht order hlocate
  · exact absurd (hlegible.fits _ hd) (Nat.not_le.2 hlong)
  · obtain ⟨hforeign, -⟩ | ⟨-, rfl⟩ := hf.cases_kind
    · exact absurd hforeign hno
    · exact herror

end Directory
end CollectionDelta
