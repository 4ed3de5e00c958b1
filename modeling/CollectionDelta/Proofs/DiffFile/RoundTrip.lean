import CollectionDelta.Proofs.DiffFile.Placed
import CollectionDelta.Proofs.DiffFile.Written
import CollectionDelta.Proofs.Format.Statistics

/-!
From two directories to a diff file, and back to base.

* `FileTree.SameDirectory`, `FileTree.SameFiles`: directories of two trees with the same below, and
  with the same files below; `sameDirectory_set_destination` says that a directory is the same after a
  file has been written elsewhere.
* `Directory.Opened.reopened`: the same directory in another tree lists and holds the same.
* `DiffFile.Recorded.restored`: the restoration succeeds, and places the files of base and no others.
* `DiffFile.base_restored`: the diff file of two directories gives base back.
-/

namespace CollectionDelta

open Difference (expected)
open Directory (Opened contentAt)

namespace FileTree

/-- The path leads to directories of both trees, below which the same stands. -/
def SameDirectory (t u : FileTree) (path : String) : Prop :=
  ∃ l l', t.locateDirectory path = .ok l ∧ u.locateDirectory path = .ok l' ∧
    ∀ way, u.node? (l' ++ way) = t.node? (l ++ way)

/-- The paths lead to directories below which the same files lie at the same places. -/
def SameFiles (t : FileTree) (path : String) (u : FileTree) (path' : String) : Prop :=
  ∃ l l', t.locateDirectory path = .ok l ∧ u.locateDirectory path' = .ok l' ∧
    ∀ way b, u.node? (l' ++ way) = some (.file b) ↔ t.node? (l ++ way) = some (.file b)

/-- A directory stays what it is when a file is written elsewhere. -/
theorem sameDirectory_set_destination {t : FileTree} {path root : String} {l x : Location}
    (h : t.WellFormed) (hx : t.destination path = .ok x) (hl : t.locateDirectory root = .ok l)
    (hout : ¬ l <+: x) (b : Bytes) : t.SameDirectory (t.set x (.file b)) root := by
  refine ⟨l, l, hl, locateDirectory_set_destination h hx b hl, fun way => ?_⟩
  have hx : x ≠ [] := fun hnil => (destination_eq_ok hx).2.2.2 (hnil ▸ node?_root t)
  have hne : l ++ way ≠ x := fun heq => hout ⟨way, heq⟩
  rw [node?_set t hx, if_neg hne]

end FileTree

/-! ## Open directories -/

namespace Directory

variable {t u : FileTree} {l : Location} {d : Directory}

/-- The directory `d`, opened in another tree, is `d'`, which lists and holds the same. -/
structure Reopened (t : FileTree) (l : Location) (d : Directory) (u : FileTree) (l' : Location)
    (d' : Directory) : Prop where
  opened : Opened u l' d'
  root_eq : d'.root = d.root
  names_eq : d'.names = d.names
  content_eq : contentAt u l' = contentAt t l

theorem Opened.reopened (hd : Opened t l d) (hu : u.WellFormed) (hsame : t.SameDirectory u d.root) :
    ∃ d' l', (openAt u d.root).result = .ok d' ∧ Reopened t l d u l' d' := by
  obtain ⟨l₁, l', hl₁, hl', hnode⟩ := hsame
  cases Except.ok.inj (hd.locate.symm.trans hl₁)
  have hlegible : Directory.Legible u l' d.root := by
    constructor
    · intro way n hn
      rw [hnode] at hn
      exact hd.legible.texts hn
    · intro ts hn
      rw [hnode] at hn
      exact hd.legible.fits ts hn
  have hd' := hlegible.opened hu hl'
  refine ⟨_, l', openBy_of_legible hu (.stored u) hl' hlegible, hd', rfl, ?_,
    funext fun name => ?_⟩
  · refine hd'.ascending.eq_of_mem_iff hd.ascending fun n => ?_
    rw [hd'.mem_names, hd.mem_names, hnode]
  · rw [contentAt, contentAt, hnode]

/-- A file has nothing below it. -/
theorem Opened.not_below (hd : Opened t l d) (h : t.WellFormed) {n n' : String} (hn : n ∈ d.names)
    (hn' : n' ∈ d.names) (hne : n ≠ n') : ¬ Location.ofName n <+: Location.ofName n' := by
  rintro ⟨way, hway⟩
  obtain ⟨b, hb⟩ := hd.mem_names.1 hn
  obtain ⟨b', hb'⟩ := hd.mem_names.1 hn'
  have hnil : way ≠ [] := by
    rintro rfl
    rw [List.append_nil] at hway
    exact hne (Location.ofName_injective hway)
  rw [← hway, ← List.append_assoc] at hb'
  rw [h.directory_above hnil hb'] at hb
  cases hb

theorem Opened.placeable (hd : Opened t l d) (h : t.WellFormed) {out n : String}
    (hn : n ∈ d.names) (hslash : '\\' ∉ n.toList)
    (hsize : (Path.join out n).utf8ByteSize ≤ FileTree.maxPath) : Placeable out n := by
  obtain ⟨b, hb⟩ := hd.mem_names.1 hn
  have hallowed := h.allowed_below hb
  exact ⟨h.plainName hb, fun p hp => (hallowed p hp).2.1, fun p hp => (hallowed p hp).2.2, hslash,
    hsize⟩

end Directory

/-! ## The restoration -/

/-- A resource is copied only if both listings have its name. -/
theorem Restoration.mem_of_copy {lb ld : List String} {cb cd : String → Bytes} (h : lb.Nodup)
    {name : String} (hcopy : .copy name ∈ steps (expected lb ld cb cd) ld) :
    name ∈ lb ∧ name ∈ ld := by
  have hhanded : (name, cd name) ∈ (steps (expected lb ld cb cd) ld).filterMap (handed cd) :=
    List.mem_filterMap.2 ⟨_, hcopy, rfl⟩
  rw [handed_expected h, List.mem_map] at hhanded
  obtain ⟨n, hn, heq⟩ := hhanded
  rw [(Prod.mk.inj heq).1] at hn
  exact ⟨mem_restoredOrder.1 hn, (fits_expected h).performable _ hcopy⟩

namespace DiffFile

/-- The files of base, in the order in which they come back. -/
def baseFiles (t : FileTree) (lb : Location) (base derived : Directory) : List (String × Bytes) :=
  (restoredOrder base.names derived.names).map fun n => (n, contentAt t lb n)

namespace Recorded

variable {t u v : FileTree} {base derived d : Directory} {lb ld l lo : Location}
  {records : List Record} {out : String}

/-- The records can be restored from what derived lists. -/
theorem fits (h : Recorded t base derived lb ld records) :
    Restoration.Fits records derived.names :=
  h.records_eq ▸ fits_expected h.base_opened.ascending.nodup

theorem mem_baseFiles (h : Recorded t base derived lb ld records) {name : String} {b : Bytes} :
    (name, b) ∈ baseFiles t lb base derived ↔ t.node? (lb ++ .ofName name) = some (.file b) := by
  simp only [baseFiles, List.mem_map, mem_restoredOrder, Prod.mk.injEq]
  constructor
  · rintro ⟨n, hn, rfl, rfl⟩
    obtain ⟨b, hb⟩ := h.base_opened.mem_names.1 hn
    rw [Directory.contentAt_eq hb, hb]
  · intro hb
    exact ⟨name, h.base_opened.mem_names.2 ⟨b, hb⟩, rfl, Directory.contentAt_eq hb⟩

/-- No file of base is in the way of another one. -/
theorem apart_baseFiles (h : Recorded t base derived lb ld records) (ht : t.WellFormed) :
    (baseFiles t lb base derived).Pairwise fun e e' => Apart e.1 e'.1 := by
  rw [baseFiles, List.pairwise_map]
  refine (nodup_restoredOrder h.base_opened.ascending.nodup _).imp_of_mem fun hn hn' hne => ?_
  have hn := mem_restoredOrder.1 hn
  have hn' := mem_restoredOrder.1 hn'
  exact ⟨h.base_opened.not_below ht hn hn' hne, h.base_opened.not_below ht hn' hn hne.symm⟩

/-- The restoration from a directory like derived succeeds, and places the files of base. -/
theorem restored (h : Recorded t base derived lb ld records) (ht : t.WellFormed)
    (hu : u.WellFormed) (hd : Directory.Reopened t ld derived u l d) (hv : u.Extends v)
    (hempty : v.Empty out lo)
    (hsize : ∀ n ∈ base.names, (Path.join out n).utf8ByteSize ≤ FileTree.maxPath) :
    let run := Restoration.restore (fun s => d.toCollection s) (placeBelow out) records v
    (∃ c, run.result = .ok c) ∧ Placing v lo (baseFiles t lb base derived) [] run.state := by
  have hnodup := h.base_opened.ascending.nodup
  have hnames : (d.toCollection v).names = .ok derived.names :=
    hd.names_eq ▸ hd.opened.listing_eq v
  have hread : ∀ {rest s name}, Placing v lo (baseFiles t lb base derived) rest s →
      .copy name ∈ Restoration.steps records derived.names →
      (d.toCollection s).read name = .ok (contentAt t ld name) := by
    intro rest s name hplacing hcopy
    rw [h.records_eq] at hcopy
    obtain ⟨hb, hd'⟩ := Restoration.mem_of_copy hnodup hcopy
    have hext := hv.trans (hplacing.extends hempty)
    rw [← hd.content_eq]
    refine (hd.opened.serves hu hext ?_ (h.base_valid name hb) ?_).1
    · rwa [hd.names_eq]
    · rw [hd.root_eq]
      exact h.derived_size_le name hb hd'
  have hplace : ∀ {rest s name bytes},
      Placing v lo (baseFiles t lb base derived) ((name, bytes) :: rest) s →
      ∃ s', placeBelow out s name bytes = (.ok (), s') ∧
        Placing v lo (baseFiles t lb base derived) rest s' := by
    intro rest s name bytes hplacing
    have hname := h.base_opened.mem_names.2 ⟨bytes, h.mem_baseFiles.1 hplacing.mem⟩
    have hplaceable := h.base_opened.placeable ht hname (h.base_valid name hname) (hsize name hname)
    exact hplacing.step hempty hplaceable (h.apart_baseFiles ht)
  have hready : Placing v lo (baseFiles t lb base derived)
      ((Restoration.steps records derived.names).filterMap
        (Restoration.handed (contentAt t ld))) v := by
    rw [h.records_eq, handed_expected hnodup]
    exact hempty.placing _
  obtain ⟨hresult, hplacing⟩ := Restoration.restore_carried
    (Placing v lo (baseFiles t lb base derived)) h.fits hread hplace (fun s => rfl) hnames hready
  exact ⟨⟨_, hresult⟩, hplacing⟩

/-- What has been placed are the files of base. -/
theorem sameFiles (h : Recorded t base derived lb ld records) (ht : t.WellFormed)
    (hempty : v.Empty out lo) (hplacing : Placing v lo (baseFiles t lb base derived) [] u) :
    t.SameFiles base.root u out := by
  have hlo := (hplacing.extends hempty).locateDirectory hempty.locate
  refine ⟨lb, lo, h.base_opened.locate, hlo, fun way b => ?_⟩
  rw [hplacing.node?_eq_file_iff hempty (h.apart_baseFiles ht)]
  constructor
  · rintro ⟨name, hmem, rfl⟩
    exact h.mem_baseFiles.1 hmem
  · intro hb
    obtain ⟨name, -, rfl⟩ := h.base_opened.exists_name ht hb
    exact ⟨name, h.mem_baseFiles.2 hb, rfl⟩

end Recorded

/-! ## Diff files -/

variable {t u : FileTree} {base derived diff out : String} {opts : DiffOptions} {c : Compression}
  {checksum : Bool} {stats : DiffStats}

/-- If the difference of two directories could be written to a file, then the restoration from the
same file and the same derived directory succeeds wherever there is an empty directory or one can be
made, and the files below are those of base. -/
theorem base_restored (ht : t.WellFormed) (hu : u.WellFormed) (hc : c.BuiltIn)
    (hok : (ofDirectories t base derived diff opts ⟨c.backend?, checksum⟩).result = .ok stats)
    (hdiff : u.readFile diff =
      (ofDirectories t base derived diff opts ⟨c.backend?, checksum⟩).tree.readFile diff)
    (hderived : t.SameDirectory u derived) (hout : u.Vacant out)
    (hsize : ∀ l way b, t.locateDirectory base = .ok l → t.node? (l ++ way) = some (.file b) →
      (Path.join out (Directory.textOf way)).utf8ByteSize ≤ FileTree.maxPath) :
    (∃ restored, (restore u derived diff out).result = .ok restored) ∧
      t.SameFiles base (restore u derived diff out).tree out := by
  obtain ⟨b, d, lb, ld, records, rfl, rfl, hrecorded, l, s, hl, hs, htree⟩ := recorded_of_ok ht hok
  rw [htree, FileTree.readFile_set_destination ht hl] at hdiff
  have hrecords : read u diff true = .ok records := hrecorded.read_eq ht hc hs hdiff
  obtain ⟨d', l', hopen, hd'⟩ := hrecorded.derived_opened.reopened hu hderived
  obtain ⟨v, lo, hv, hext, hempty⟩ := hout.makeDirectories
  have hpaths : ∀ n ∈ b.names, (Path.join out n).utf8ByteSize ≤ FileTree.maxPath := by
    intro n hn
    obtain ⟨bytes, hbytes⟩ := hrecorded.base_opened.mem_names.1 hn
    have hsize := hsize lb (.ofName n) bytes hrecorded.base_opened.locate hbytes
    rwa [Location.textOf_ofName] at hsize
  obtain ⟨⟨counts, hresult⟩, hplacing⟩ := hrecorded.restored ht hu hd' hext hempty hpaths
  have hrestore : (restore u d.root diff out).result = .ok ⟨records.length, counts.copied,
      counts.restored, counts.skipped, counts.bytes⟩ := by
    simp only [restore, hrecords, hopen, hv, hresult]
    rfl
  refine ⟨⟨_, hrestore⟩, ?_⟩
  simp only [restore, hrecords, hopen, hv]
  exact hrecorded.sameFiles ht hempty hplacing

/-- What is a directory of base is a file of derived, and the restored directory is a new one. -/
theorem base_restored_swapped :
    let t : FileTree := { entries :=
      [([.text "base"], .directory), ([.text "base", .text "link"], .link "sub"),
        ([.text "base", .text "sub"], .directory),
        ([.text "base", .text "sub", .text "b"], .file (List.replicate 64 2)),
        ([.text "derived"], .directory), ([.text "derived", .text "sub"], .file [])] }
    let run := ofDirectories t "base" "derived" "d" {} ⟨(Compression.zlib 6).backend?, true⟩
    (∃ stats, run.result = .ok stats) ∧
      (∃ restored, (restore run.tree "derived" "d" "new/out").result = .ok restored) ∧
      t.SameFiles "base" (restore run.tree "derived" "d" "new/out").tree "new/out" := by
  intro t run
  have ht : t.WellFormed := by decide +kernel
  have hc : (Compression.zlib 6).BuiltIn := trivial
  have hcompare : (compare t "base" "derived" {}).result =
      .ok (1, 1, [.removed "sub/b" (List.replicate 64 2), .added "sub"]) := by
    decide +kernel
  have hd : t.destination "d" = .ok [.text "d"] := by decide +kernel
  have hwritable : Writable [.removed "sub/b" (List.replicate 64 2), .added "sub"] :=
    ⟨by decide +kernel, by decide +kernel, by decide⟩
  obtain ⟨s, hs⟩ := ofRecords_of_builtIn hc true hwritable
  obtain ⟨⟨stats, hok⟩, htree⟩ := ofDirectories_of_compare hcompare hd hs
  have hsize : ∀ e ∈ t.entries, (Path.join "new/out" (Directory.textOf (e.1.drop 1))).utf8ByteSize ≤
      FileTree.maxPath := by decide +kernel
  have hlength := Encoding.length_bytes_le hs
  have hwf : run.tree.WellFormed := by
    have hempty : (t.set [.text "d"] (.file [])).WellFormed := by decide +kernel
    rw [show run.tree = _ from htree]
    refine hempty.set_file (Nat.lt_of_le_of_lt hlength ?_)
    decide +kernel
  have hderived : t.SameDirectory run.tree "derived" := by
    rw [show run.tree = _ from htree]
    refine FileTree.sameDirectory_set_destination ht hd (l := [.text "derived"]) ?_ ?_ _
    · decide +kernel
    · decide
  have hout : run.tree.PathBelow "new/out" [] ["new", "out"] := by
    have hstart : run.tree.startOf "new/out" = [] := by
      rw [show run.tree = _ from htree]
      decide +kernel
    refine ⟨by decide, ⟨[], FileTree.maxLinks, by decide, ?_⟩, FileTree.node?_root _, by decide⟩
    rw [hstart]
    exact .done
  have hvacant : run.tree.Vacant "new/out" := by
    refine FileTree.vacant_of_missing hwf hout ?_
    rw [show run.tree = _ from htree]
    decide +kernel
  refine ⟨⟨stats, hok⟩, base_restored ht hwf hc hok rfl hderived hvacant ?_⟩
  intro l way b hl hb
  have hbase : t.locateDirectory "base" = .ok [.text "base"] := by decide +kernel
  cases Except.ok.inj (hl.symm.trans hbase)
  have hentry := hsize _ (FileTree.mem_of_node? (List.cons_ne_nil _ way) hb)
  simpa only [List.drop_succ_cons, List.drop_zero] using hentry

/-- Where a file is in the way, there is no directory, and none can be made. -/
theorem base_not_restored_below_file :
    let t : FileTree := { entries :=
      [([.text "base"], .directory), ([.text "base", .text "a"], .file [0x31]),
        ([.text "derived"], .directory), ([.text "f"], .file [0x78])] }
    let run := ofDirectories t "base" "derived" "d" {} {}
    t.WellFormed ∧ (∃ stats, run.result = .ok stats) ∧ t.SameDirectory run.tree "derived" ∧
      run.tree.pathExists "f/x" = false ∧
      (restore run.tree "derived" "d" "f/x").result = .error (.io .notADirectory) := by
  intro t run
  have ht : t.WellFormed := by decide +kernel
  have hcompare : (compare t "base" "derived" {}).result = .ok (1, 0, [.removed "a" [0x31]]) := by
    decide +kernel
  have hd : t.destination "d" = .ok [.text "d"] := by decide +kernel
  obtain ⟨hok, htree⟩ := ofDirectories_of_compare (o := {}) hcompare hd (s := ⟨1, 1, 1, 0⟩)
    (by decide +kernel)
  refine ⟨ht, hok, ?_, ?_⟩
  · rw [show run.tree = _ from htree]
    refine FileTree.sameDirectory_set_destination ht hd (l := [.text "derived"]) ?_ ?_ _
    · decide +kernel
    · decide
  · rw [show run.tree = _ from htree]
    decide +kernel

end DiffFile
end CollectionDelta
