import CollectionDelta.Collection.Directory
import CollectionDelta.Proofs.FileTree.ResourcePath
import CollectionDelta.Proofs.FileTree.WellFormed
import Mathlib.Data.List.Nodup
import Mathlib.Data.List.TakeWhile

/-!
The files below a directory.

* `Location.ofName`, `Directory.textOf`: the way that a name stands for, and the name of a way.
* `FileTree.filesBelow`, `Directory.files`: the files below a location, with their bytes and without.
* `FileTree.WellFormed.mem_entries`: what a directory is said to hold, in any order.
* `Directory.files_perm`: the files below a directory are those at its entries.
-/

namespace CollectionDelta

open FileTree (Enumeration)

/-! ## Names and ways -/

namespace Directory

/-- The entry names of a way as one slash-separated text, up to the first that is no text. -/
def textOf (way : Location) : String :=
  "/".intercalate ((way.takeWhile fun n => n.text?.isSome).filterMap EntryName.text?)

end Directory

namespace Location

/-- The way that a name stands for. -/
def ofName (name : String) : Location := ofTexts (Path.split name)

theorem ofName_ne_nil (name : String) : ofName name ≠ [] := by
  simp [ofName, ofTexts, Path.split_ne_nil]

theorem ofName_injective {a b : String} (h : ofName a = ofName b) : a = b :=
  Path.split_injective (ofTexts_injective h)

theorem textOf_ofTexts (ts : List String) : Directory.textOf (ofTexts ts) = "/".intercalate ts := by
  have hall : (ofTexts ts).takeWhile (fun n => n.text?.isSome) = ofTexts ts := by
    rw [List.takeWhile_eq_self_iff]
    intro x hx
    obtain ⟨s, -, rfl⟩ := List.mem_map.1 hx
    rfl
  have htexts : (ofTexts ts).filterMap EntryName.text? = ts := by
    rw [ofTexts, List.filterMap_map]
    exact List.filterMap_some
  rw [Directory.textOf, hall, htexts]

theorem textOf_ofName (name : String) : Directory.textOf (ofName name) = name := by
  rw [ofName, textOf_ofTexts, Path.intercalate_split]

end Location

/-! ## Ways to files -/

namespace FileTree.WellFormed

variable {t : FileTree} {l : Location} {n : Node} {name : String}

theorem allowed_below (h : t.WellFormed) {ts : List String}
    (hn : t.node? (l ++ .ofTexts ts) = some n) : ∀ p ∈ ts,
      Path.Plain p ∧ '\x00' ∉ p.toList ∧ p.utf8ByteSize ≤ maxEntryName := by
  intro p hp
  exact h.allowed_of_node? hn (.text p) (List.mem_append_right l (List.mem_map_of_mem hp))

theorem allowed_entry (h : t.WellFormed) (hn : t.node? (l ++ [.text name]) = some n) :
    Path.Plain name ∧ '\x00' ∉ name.toList ∧ name.utf8ByteSize ≤ maxEntryName :=
  h.allowed_of_node? hn (.text name) (List.mem_append_right l (List.mem_singleton_self _))

theorem plainName (h : t.WellFormed) (hn : t.node? (l ++ .ofName name) = some n) :
    Path.PlainName name := fun p hp => (h.allowed_below hn p hp).1

/-- Below a directory, each way of texts to something is that of its name. -/
theorem ofTexts_eq_ofName (h : t.WellFormed) {ts : List String} (hne : ts ≠ [])
    (hn : t.node? (l ++ .ofTexts ts) = some n) :
    Location.ofTexts ts = Location.ofName (Directory.textOf (.ofTexts ts)) := by
  have hplain := fun p hp => (h.allowed_below hn p hp).1
  rw [Location.textOf_ofTexts, Location.ofName, Path.plainName_intercalate hne hplain]

end FileTree.WellFormed

/-! ## Files and entries -/

/-- The files below a location, with the ways to them. -/
def FileTree.filesBelow (t : FileTree) (l : Location) : List (Location × Bytes) :=
  (t.below l).filterMap fun
    | (way, .file b) => some (way, b)
    | _ => none

theorem FileTree.WellFormed.mem_filesBelow {t : FileTree} {l way : Location} {b : Bytes}
    (h : t.WellFormed) (hl : t.node? l = some .directory) :
    (way, b) ∈ t.filesBelow l ↔ t.node? (l ++ way) = some (.file b) := by
  rw [filesBelow, List.mem_filterMap]
  constructor
  · rintro ⟨⟨way', n⟩, hmem, heq⟩
    cases n with
    | file b' =>
      cases heq
      exact (h.mem_below.1 hmem).2
    | directory => cases heq
    | link target => cases heq
  · intro hb
    refine ⟨(way, .file b), h.mem_below.2 ⟨?_, hb⟩, rfl⟩
    rintro rfl
    rw [List.append_nil, hl] at hb
    cases hb

theorem FileTree.WellFormed.mem_children {t : FileTree} {l : Location} {x : EntryName} {n : Node}
    (h : t.WellFormed) : (x, n) ∈ t.children l ↔ t.node? (l ++ [x]) = some n := by
  have hne : l ++ [x] ≠ [] := List.append_ne_nil_of_right_ne_nil l (List.cons_ne_nil x [])
  rw [children, List.mem_filterMap]
  constructor
  · rintro ⟨⟨way, n'⟩, hmem, heq⟩
    split at heq
    · next name hname =>
      obtain ⟨front, rfl⟩ := List.getLast?_eq_some_iff.1 hname
      simp only [List.dropLast_concat, Option.ite_none_right_eq_some, Option.some.injEq,
        Prod.mk.injEq] at heq
      obtain ⟨rfl, rfl, rfl⟩ := heq
      exact (h.mem_iff.1 hmem).2
    · cases heq
  · intro hn
    exact ⟨(l ++ [x], n), h.mem_iff.2 ⟨hne, hn⟩, by simp⟩

theorem FileTree.WellFormed.nodup_children {t : FileTree} (h : t.WellFormed) (l : Location) :
    ((t.children l).map Prod.fst).Nodup := by
  have hentries : t.entries.Pairwise fun e e' => e.1 ≠ e'.1 := List.pairwise_map.1 h.nodup
  refine List.pairwise_map.2 (hentries.filterMap _ ?_)
  rintro ⟨way, n⟩ ⟨way', n'⟩ hne ⟨x, m⟩ hx ⟨x', m'⟩ hx'
  split at hx
  · next name hname =>
    obtain ⟨front, rfl⟩ := List.getLast?_eq_some_iff.1 hname
    split at hx'
    · next name' hname' =>
      obtain ⟨front', rfl⟩ := List.getLast?_eq_some_iff.1 hname'
      simp only [List.dropLast_concat, Option.ite_none_right_eq_some, Option.some.injEq,
        Prod.mk.injEq] at hx hx'
      obtain ⟨rfl, rfl, rfl⟩ := hx
      obtain ⟨rfl, rfl, rfl⟩ := hx'
      rintro rfl
      exact hne rfl
    · cases hx'
  · cases hx

theorem FileTree.WellFormed.mem_entries {t : FileTree} {l : Location} {x : EntryName} {n : Node}
    (h : t.WellFormed) (order : Enumeration t) :
    (x, n) ∈ order.entries l ↔ t.node? (l ++ [x]) = some n := by
  rw [(order.perm l).mem_iff, h.mem_children]

namespace Directory

variable {t : FileTree} {l : Location}

/-- The ways to the files below a location. -/
def files (t : FileTree) (l : Location) : List Location :=
  (t.below l).filterMap fun
    | (way, .file _) => some way
    | _ => none

theorem map_fst_filesBelow (t : FileTree) (l : Location) :
    (t.filesBelow l).map Prod.fst = files t l := by
  rw [FileTree.filesBelow, List.map_filterMap, files]
  refine List.filterMap_congr ?_
  rintro ⟨way, n⟩ -
  cases n <;> rfl

theorem mem_files (h : t.WellFormed) (hl : t.node? l = some .directory) {way : Location} :
    way ∈ files t l ↔ ∃ b, t.node? (l ++ way) = some (.file b) := by
  rw [← map_fst_filesBelow, List.mem_map]
  constructor
  · rintro ⟨⟨way, b⟩, hmem, rfl⟩
    exact ⟨b, (h.mem_filesBelow hl).1 hmem⟩
  · rintro ⟨b, hb⟩
    exact ⟨(way, b), (h.mem_filesBelow hl).2 hb, rfl⟩

theorem nodup_files (h : t.WellFormed) (l : Location) : (files t l).Nodup := by
  have hentries : t.entries.Pairwise fun e e' => e.1 ≠ e'.1 := List.pairwise_map.1 h.nodup
  have hbelow : (t.below l).Pairwise fun e e' => e.1 ≠ e'.1 := by
    refine hentries.filterMap _ ?_
    rintro ⟨l₁, n₁⟩ ⟨l₂, n₂⟩ hne e he e' he' heq
    simp only [Option.ite_none_right_eq_some, Option.some.injEq] at he he'
    obtain ⟨⟨h₁, -⟩, rfl⟩ := he
    obtain ⟨⟨h₂, -⟩, rfl⟩ := he'
    obtain ⟨way, rfl⟩ := List.isPrefixOf_iff_prefix.1 h₁
    obtain ⟨way', rfl⟩ := List.isPrefixOf_iff_prefix.1 h₂
    have heq : way = way' := by simpa [List.drop_left] using heq
    exact hne (congrArg (l ++ ·) heq)
  refine hbelow.filterMap _ ?_
  rintro ⟨way, n⟩ ⟨way', n'⟩ hne v hv v' hv'
  cases n with
  | file b =>
    cases n' with
    | file b' =>
      cases hv
      cases hv'
      exact hne
    | directory => cases hv'
    | link target => cases hv'
  | directory => cases hv
  | link target => cases hv

theorem nodup_filesBelow (h : t.WellFormed) (l : Location) : (t.filesBelow l).Nodup :=
  .of_map Prod.fst (map_fst_filesBelow t l ▸ nodup_files h l)

/-- The ways to the files at an entry and below it. -/
def filesAt (t : FileTree) (l : Location) : EntryName × Node → List Location
  | (x, .directory) => (files t (l ++ [x])).map (x :: ·)
  | (x, .file _) => [[x]]
  | (_, .link _) => []

theorem mem_filesAt (h : t.WellFormed) {x : EntryName} {n : Node} {way : Location}
    (hn : t.node? (l ++ [x]) = some n) :
    way ∈ filesAt t l (x, n) ↔
      ∃ way', way = x :: way' ∧ ∃ b, t.node? (l ++ way) = some (.file b) := by
  cases n with
  | directory =>
    rw [filesAt, List.mem_map]
    constructor
    · rintro ⟨way', hway', rfl⟩
      obtain ⟨b, hb⟩ := (mem_files h hn).1 hway'
      exact ⟨way', rfl, b, by rwa [List.append_assoc] at hb⟩
    · rintro ⟨way', rfl, b, hb⟩
      exact ⟨way', (mem_files h hn).2 ⟨b, by rwa [List.append_assoc]⟩, rfl⟩
  | file b =>
    rw [filesAt, List.mem_singleton]
    constructor
    · rintro rfl
      exact ⟨[], rfl, b, hn⟩
    · rintro ⟨way', rfl, b', hb'⟩
      by_cases hway : way' = []
      · rw [hway]
      · rw [List.append_cons] at hb'
        rw [h.directory_above hway hb'] at hn
        cases hn
  | link target =>
    rw [filesAt]
    constructor
    · intro hmem
      cases hmem
    · rintro ⟨way', rfl, b, hb⟩
      by_cases hway : way' = []
      · rw [hway, hn] at hb
        cases hb
      · rw [List.append_cons] at hb
        rw [h.directory_above hway hb] at hn
        cases hn

theorem nodup_filesAt (h : t.WellFormed) (l : Location) (e : EntryName × Node) :
    (filesAt t l e).Nodup := by
  obtain ⟨x, n⟩ := e
  cases n with
  | directory => exact (nodup_files h _).map fun way way' heq => (List.cons.inj heq).2
  | file b => exact List.nodup_singleton _
  | link target => exact List.nodup_nil

/-- The files below a directory are those at its entries, in any order of these. -/
theorem files_perm (h : t.WellFormed) (hl : t.node? l = some .directory) (order : Enumeration t) :
    (files t l).Perm ((order.entries l).flatMap (filesAt t l)) := by
  have hnodup : ((order.entries l).flatMap (filesAt t l)).Nodup := by
    rw [List.nodup_flatMap]
    refine ⟨fun e _ => nodup_filesAt h l e, ?_⟩
    have hnames : ((order.entries l).map Prod.fst).Nodup :=
      ((order.perm l).map Prod.fst).nodup_iff.2 (h.nodup_children l)
    refine (List.pairwise_map.1 hnames).imp_of_mem ?_
    rintro ⟨x, n⟩ ⟨x', n'⟩ hx hx' hne way hway hway'
    obtain ⟨_, rfl, -⟩ := (mem_filesAt h ((h.mem_entries order).1 hx)).1 hway
    obtain ⟨_, heq, -⟩ := (mem_filesAt h ((h.mem_entries order).1 hx')).1 hway'
    exact hne (List.cons.inj heq).1
  refine (List.perm_ext_iff_of_nodup (nodup_files h l) hnodup).2 fun way => ?_
  rw [mem_files h hl, List.mem_flatMap]
  constructor
  · rintro ⟨b, hb⟩
    cases way with
    | nil =>
      rw [List.append_nil, hl] at hb
      cases hb
    | cons x way =>
      obtain ⟨n, hn⟩ : ∃ n, t.node? (l ++ [x]) = some n := by
        by_cases hway : way = []
        · exact ⟨_, hway ▸ hb⟩
        · rw [List.append_cons] at hb
          exact ⟨_, h.directory_above hway hb⟩
      exact ⟨(x, n), (h.mem_entries order).2 hn, (mem_filesAt h hn).2 ⟨way, rfl, b, hb⟩⟩
  · rintro ⟨⟨x, n⟩, hx, hway⟩
    obtain ⟨-, -, hb⟩ := (mem_filesAt h ((h.mem_entries order).1 hx)).1 hway
    exact hb

end Directory

end CollectionDelta
