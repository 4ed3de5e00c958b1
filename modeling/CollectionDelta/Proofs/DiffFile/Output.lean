import CollectionDelta.Proofs.DiffFile.Written

/-!
What becomes of a file tree when the difference of two directories is written into it.

* `FileTree.FileChanged`: one file of a tree has other contents, or is new; nothing else has
  changed.
* `DiffFile.Undiffable`: two paths between which no difference is found;
  `ofDirectories_of_undiffable` says that then nothing is written.
* `DiffFile.write_cases`, `DiffFile.ofDirectories_touches`: what writing a diff file does to the
  tree, whether it succeeds or not.
* `DiffFile.output_is_difference`: nothing but the output is touched, only when there is a
  difference, and that is what is read of it. In `output_in_derived`, the output lies in one of the
  directories.
-/

namespace CollectionDelta

/-- From the tree `t` to the tree `u`, the file at `l` has changed or is new, and nothing else. -/
structure FileTree.FileChanged (t : FileTree) (l : Location) (u : FileTree) : Prop where
  before : t.node? l = none ∨ ∃ bytes, t.node? l = some (.file bytes)
  after : ∃ bytes, u.node? l = some (.file bytes)
  elsewhere : ∀ l', l' ≠ l → u.node? l' = t.node? l'
  current_eq : u.current = t.current

theorem FileTree.fileChanged_set_destination {t : FileTree} {path : String} {l : Location}
    (h : t.WellFormed) (hl : t.destination path = .ok l) (bytes : Bytes) :
    t.FileChanged l (t.set l (.file bytes)) := by
  obtain ⟨-, -, hwalk, hdir⟩ := destination_eq_ok hl
  have hne : l ≠ [] := fun hnil => hdir (hnil ▸ node?_root t)
  refine ⟨?_, ⟨bytes, by rw [node?_set t hne, if_pos rfl]⟩, fun l' hl' => ?_, rfl⟩
  · cases hn : t.node? l with
    | none => exact .inl rfl
    | some n =>
      cases n with
      | directory => exact absurd hn hdir
      | file b => exact .inr ⟨b, rfl⟩
      | link target => exact absurd hn (not_link_of_walk h (h.directory_startOf path) hwalk target)
  · rw [node?_set t hne, if_neg hl']

namespace DiffFile

variable {t u : FileTree} {base derived out : String} {opts : DiffOptions} {o : WriteOptions}

/-- Either directory cannot be opened, or the difference of the two cannot be found. -/
inductive Undiffable (t : FileTree) (base derived : String) (opts : DiffOptions) : Prop
  | base {f : Fault} (h : (Directory.openAt t base).result = .error f)
  | derived {f : Fault} (h : (Directory.openAt t derived).result = .error f)
  | difference {b d : Directory} {e : DeltaError}
      (hb : (Directory.openAt t base).result = .ok b)
      (hd : (Directory.openAt t derived).result = .ok d)
      (h : (Difference.generate opts (b.toCollection t) (d.toCollection t)).result = .error e)

theorem compare_eq_error (h : Undiffable t base derived opts) :
    ∃ e, (compare t base derived opts).result = .error e := by
  cases hcompare : (compare t base derived opts).result with
  | error e => exact ⟨e, rfl⟩
  | ok found =>
    obtain ⟨b, d, hb, hd, hg⟩ := compare_eq_ok hcompare
    cases h with
    | base h => rw [hb] at h; cases h
    | derived h => rw [hd] at h; cases h
    | difference hb' hd' h =>
      cases hb.symm.trans hb'
      cases hd.symm.trans hd'
      rw [hg] at h
      cases h

/-- Without a path to a file nothing is done. With one, the file is written, in whole or in part. -/
theorem write_cases (t : FileTree) (path : String) (records : List Record) (o : WriteOptions) :
    (write t path records o).2 = t ∨ ∃ l bytes, t.destination path = .ok l ∧
      (write t path records o).2 = t.set l (.file bytes) := by
  rw [write_eq]
  cases t.destination path with
  | error f => exact .inl rfl
  | ok l => exact .inr ⟨l, _, rfl, rfl⟩

theorem ofDirectories_of_undiffable (h : Undiffable t base derived opts) (out : String)
    (o : WriteOptions) : (∃ e, (ofDirectories t base derived out opts o).result = .error e) ∧
      (ofDirectories t base derived out opts o).tree = t := by
  obtain ⟨e, he⟩ := compare_eq_error h
  simp only [ofDirectories, he]
  exact ⟨⟨e, rfl⟩, trivial⟩

theorem ofDirectories_touches (ht : t.WellFormed) (base derived out : String) (opts : DiffOptions)
    (o : WriteOptions) : (ofDirectories t base derived out opts o).tree = t ∨
      ∃ l, t.destination out = .ok l ∧
        t.FileChanged l (ofDirectories t base derived out opts o).tree := by
  unfold ofDirectories
  dsimp only
  split
  · exact .inl rfl
  · next b d records _ =>
    rcases write_cases t out records o with hsame | ⟨l, bytes, hl, hset⟩
    · exact .inl hsame
    · refine .inr ⟨l, hl, ?_⟩
      dsimp only
      rw [hset]
      exact FileTree.fileChanged_set_destination ht hl bytes

/-- Only the output is touched, whatever the outcome, and not even that if there is no difference.
After a success, the path of the output leads to the one file that has changed, and it is read as
the difference of the two directories as they were before, wherever it lies. -/
theorem output_is_difference (ht : t.WellFormed) {c : Compression} (hc : c.BuiltIn)
    (base derived out : String) (opts : DiffOptions) (checksum : Bool) :
    let run := ofDirectories t base derived out opts ⟨c.backend?, checksum⟩
    (Undiffable t base derived opts → (∃ e, run.result = .error e) ∧ run.tree = t) ∧
      (run.tree = t ∨ ∃ l, t.destination out = .ok l ∧ t.FileChanged l run.tree) ∧
      ∀ stats, run.result = .ok stats → ∃ l b d records,
        run.tree.locate out = .ok l ∧ t.FileChanged l run.tree ∧
        (Directory.openAt t base).result = .ok b ∧ (Directory.openAt t derived).result = .ok d ∧
        (Difference.generate opts (b.toCollection t) (d.toCollection t)).result = .ok records ∧
        ∀ verify, read run.tree out verify = .ok records := by
  intro run
  refine ⟨fun h => ofDirectories_of_undiffable h out _, ofDirectories_touches ht .., ?_⟩
  intro stats hok
  obtain ⟨nb, nd, records, l, s, hcompare, hl, hs, htree⟩ := ofDirectories_eq_ok hok
  obtain ⟨b, d, hb, hd, hg⟩ := compare_eq_ok hcompare
  obtain ⟨-, -, lb, ld, hrecorded⟩ := recorded_of_generate ht hb hd hg
  rw [show run.tree = _ from htree]
  refine ⟨l, b, d, records, FileTree.locate_set_destination ht hl _,
    FileTree.fileChanged_set_destination ht hl _, hb, hd, hg, fun verify => ?_⟩
  exact hrecorded.read_eq ht hc hs (FileTree.readFile_set_destination ht hl _)

/-- The output is a file of the derived directory, which is compared as it was. -/
theorem output_in_derived :
    let t : FileTree := { entries :=
      [([.text "base"], .directory), ([.text "base", .text "a"], .file (List.replicate 64 1)),
        ([.text "derived"], .directory), ([.text "derived", .text "d"], .file [9])] }
    let run := ofDirectories t "base" "derived" "derived/d" {} ⟨(Compression.zlib 9).backend?, true⟩
    (∃ stats, run.result = .ok stats) ∧
      t.FileChanged [.text "derived", .text "d"] run.tree ∧
      ∀ verify, read run.tree "derived/d" verify =
        .ok [.removed "a" (List.replicate 64 1), .added "d"] := by
  intro t run
  have ht : t.WellFormed := by decide +kernel
  have hc : (Compression.zlib 9).BuiltIn := trivial
  have hcompare : (compare t "base" "derived" {}).result =
      .ok (1, 1, [.removed "a" (List.replicate 64 1), .added "d"]) := by
    decide +kernel
  have hd : t.destination "derived/d" = .ok [.text "derived", .text "d"] := by decide +kernel
  have hwritable : Writable [.removed "a" (List.replicate 64 1), .added "d"] :=
    ⟨by decide +kernel, by decide +kernel, by decide⟩
  obtain ⟨s, hs⟩ := ofRecords_of_builtIn hc true hwritable
  obtain ⟨⟨stats, hok⟩, htree⟩ := ofDirectories_of_compare hcompare hd hs
  obtain ⟨-, -, hwritten⟩ := output_is_difference ht hc "base" "derived" "derived/d" {}
    true
  obtain ⟨l, b, d, records, hl, hchanged, hopen, hopen', hg, hread⟩ := hwritten stats hok
  obtain ⟨b', d', hb, hd', hg'⟩ := compare_eq_ok hcompare
  cases hopen.symm.trans hb
  cases hopen'.symm.trans hd'
  cases hg.symm.trans hg'
  have hl' := FileTree.locate_set_destination ht hd (Encoding.ofRecords
    ⟨(Compression.zlib 9).backend?, true⟩ [.removed "a" (List.replicate 64 1), .added "d"]).bytes
  rw [← htree] at hl'
  cases hl.symm.trans hl'
  exact ⟨⟨stats, hok⟩, hchanged, hread⟩

end DiffFile
end CollectionDelta
