import CollectionDelta.Proofs.DiffFile.Overlap
import CollectionDelta.Proofs.Format.Statistics
import CollectionDelta.Proofs.Program.Unforced
import CollectionDelta.Proofs.Restoration.Counted

/-!
What the counts of a difference, of its diff file and of its restoration have to do with each other.

* `Directory.Opened.filesBelow_perm`: the files below an open directory are those that it lists.
* `DiffFile.alike_of_read`: a diff file is read as records of the kinds, names and sizes that were
  written, or not at all.
* `DiffFile.stats_of_compare`: what a difference that could be written says of itself.
* `Recorded.tally`, `Recorded.counts_of_restore`: the files on both sides by what became of them, and
  the counts of a restoration of alike records into an empty directory.
* `DiffFile.counters_balance`: all of them add up.
-/

namespace CollectionDelta

open Directory (Opened contentAt)
open FileTree (ChangedBelow)
open Restoration (counted steps)

/-! ## The files below a directory -/

namespace Directory.Opened

variable {t : FileTree} {l : Location} {d : Directory}

theorem mem_filesBelow_ofName (hd : Opened t l d) (h : t.WellFormed) {name : String} {b : Bytes} :
    (.ofName name, b) ∈ t.filesBelow l ↔ name ∈ d.names ∧ contentAt t l name = b := by
  rw [h.mem_filesBelow hd.directory, hd.mem_names]
  constructor
  · exact fun hb => ⟨⟨b, hb⟩, contentAt_eq hb⟩
  · rintro ⟨⟨b', hb'⟩, rfl⟩
    rw [contentAt_eq hb', hb']

/-- An open directory lists each file below it once. -/
theorem filesBelow_perm (hd : Opened t l d) (h : t.WellFormed) :
    (t.filesBelow l).Perm (d.names.map fun n => (.ofName n, contentAt t l n)) := by
  have hinjective : Function.Injective fun n => (Location.ofName n, contentAt t l n) :=
    fun n n' heq => Location.ofName_injective (Prod.mk.inj heq).1
  refine (List.perm_ext_iff_of_nodup (nodup_filesBelow h l)
    (hd.ascending.nodup.map hinjective)).2 ?_
  rintro ⟨way, b⟩
  rw [List.mem_map]
  constructor
  · intro hmem
    obtain ⟨n, -, rfl⟩ := hd.exists_name h ((h.mem_filesBelow hd.directory).1 hmem)
    obtain ⟨hn, rfl⟩ := (hd.mem_filesBelow_ofName h).1 hmem
    exact ⟨n, hn, rfl⟩
  · rintro ⟨n, hn, heq⟩
    cases heq
    exact (hd.mem_filesBelow_ofName h).2 ⟨hn, rfl⟩

theorem length_filesBelow (hd : Opened t l d) (h : t.WellFormed) :
    ((t.filesBelow l).map fun e => e.2.length).sum =
      (d.names.map fun n => (contentAt t l n).length).sum := by
  rw [((hd.filesBelow_perm h).map _).sum_eq, List.map_map]
  rfl

end Directory.Opened

namespace DiffFile

variable {t u v : FileTree} {o : WriteOptions} {records found : List Record}

/-! ## What was written and what is read -/

/-- What a difference that was written says of itself. -/
theorem stats_of_compare {base derived diff : String} {opts : DiffOptions} {nb nd : Nat}
    {stats : DiffStats} (hcompare : (compare t base derived opts).result = .ok (nb, nd, records))
    (hok : (ofDirectories t base derived diff opts o).result = .ok stats) :
    stats.baseResources = nb ∧ stats.derivedResources = nd ∧
      stats.summary = .ofRecords records ∧
      (Encoding.ofRecords o records).result = .ok stats.written.stats := by
  simp only [ofDirectories, hcompare] at hok
  cases hwrite : write t diff records o with
  | mk r u =>
    rw [hwrite] at hok
    cases r with
    | error e => cases hok
    | ok w =>
      cases hok
      obtain ⟨l, -, hstats, -⟩ := write_ok_iff.1 hwrite
      exact ⟨rfl, rfl, rfl, hstats⟩

/-- Whatever the codec makes of the payloads, what is read of a diff file has the kinds, names and
sizes of what was written. -/
theorem alike_of_read {path : String} {stats : WriteStats}
    (hok : (Encoding.ofRecords o records).result = .ok stats)
    (hread : u.readFile path = .ok (Encoding.ofRecords o records).bytes)
    (hfound : read u path true = .ok found) : List.Forall₂ Record.Alike records found := by
  rw [read, FileTree.openFile_of_readFile hread] at hfound
  cases hrecords : (readRecords { verify := true }
      (.ofBytes (Encoding.ofRecords o records).bytes)).1 with
  | error e =>
    simp only [hrecords] at hfound
    cases hfound
  | ok read =>
    simp only [hrecords] at hfound
    cases hfound
    obtain ⟨hfile, -⟩ := readRecords_sound (Stream.holds_ofBytes _) (Prod.ext hrecords rfl)
    exact Encoding.alike_of_file hok hfile

/-! ## What is counted -/

namespace Recorded

variable {base derived d : Directory} {lb ld l lo : Location} {out : String}

/-- The files of both sides, by what becomes of them. -/
theorem tally (h : Recorded t base derived lb ld records) (ht : t.WellFormed) :
    let s := Summary.ofRecords records
    let shared := (t.filesBelow ld).countP fun e => e ∈ t.filesBelow lb
    (steps records derived.names).foldl (counted (contentAt t ld)) {} =
        ⟨shared, s.removed + s.modified, s.added,
          ((t.filesBelow lb).map fun e => e.2.length).sum⟩ ∧
      base.names.length = s.removed + s.modified + shared ∧
      derived.names.length = s.added + s.modified + shared := by
  have hshared : ((t.filesBelow ld).countP fun e => e ∈ t.filesBelow lb) =
      derived.names.countP fun n => n ∈ base.names ∧ contentAt t lb n = contentAt t ld n := by
    rw [(h.derived_opened.filesBelow_perm ht).countP_eq, List.countP_map]
    refine List.countP_congr fun n _ => ?_
    simp only [Function.comp_apply, decide_eq_true_eq]
    exact h.base_opened.mem_filesBelow_ofName ht
  dsimp only
  rw [hshared, h.base_opened.length_filesBelow ht, h.records_eq]
  exact Restoration.tally_expected h.base_opened.ascending.nodup h.derived_opened.ascending.nodup

/-- In an empty directory nothing that derived has is overwritten, so that the copies have the bytes
that it had at the beginning. -/
theorem counts_of_restore (h : Recorded t base derived lb ld records) (hu : u.WellFormed)
    (hd : Directory.Reopened t ld derived u l d) (hv : u.Extends v) (hempty : v.Empty out lo)
    (halike : List.Forall₂ Record.Alike records found) {c : Counts}
    (hok : (Restoration.restore (fun s => d.toCollection s) (placeBelow out) found v).result =
      .ok c) :
    c = (steps records derived.names).foldl (counted (contentAt t ld)) {} := by
  have hfits : Restoration.Fits found derived.names := h.fits.alike halike
  have hplace : ∀ s name bytes, ChangedBelow lo v s →
      ChangedBelow lo v (placeBelow out s name bytes).2 := fun s name bytes hs =>
    hs.trans ((hempty.settled.of_changedBelow hs).changedBelow_placeBelow name bytes)
  have hread : ∀ {s name bytes}, ChangedBelow lo v s → .copy name ∈ steps found derived.names →
      (d.toCollection s).read name = .ok bytes → bytes = contentAt t ld name := by
    intro s name bytes hs hcopy hread
    have hlisted : name ∈ d.names := hd.names_eq ▸ hfits.performable _ hcopy
    obtain ⟨b, hb⟩ := hd.opened.mem_names.1 hlisted
    have hext : u.Extends s := hv.trans (hs.extends hempty)
    have hnow := hd.opened.node?_of_read hu hext.retains hext.current_eq hlisted hread
    rw [hext.node?_eq hb] at hnow
    cases hnow
    rw [← hd.content_eq, Directory.contentAt_eq hb]
  have hnames : (d.toCollection v).names = .ok derived.names :=
    hd.names_eq ▸ hd.opened.listing_eq v
  rw [← Restoration.foldl_steps_alike halike]
  exact Restoration.restore_counted hfits (ChangedBelow lo v) hplace hread (fun _ => rfl) hnames
    (.refl lo v) hok

end Recorded

/-! ## The balance -/

variable {base derived diff out : String} {opts : DiffOptions} {stats : DiffStats}
  {restored : RestoreStats}

/-- If the difference of two directories could be written, with whatever codec, and is restored from
the same derived directory into an empty one or a new one, then all that was counted on the way adds
up: a file of base is removed, modified or shared, and is restored or copied accordingly; a file of
derived is added, modified or shared; and there is a record for each file that is not shared. -/
theorem counters_balance (ht : t.WellFormed) (hu : u.WellFormed)
    (hok : (ofDirectories t base derived diff opts o).result = .ok stats)
    (hdiff : u.readFile diff = (ofDirectories t base derived diff opts o).tree.readFile diff)
    (hderived : t.SameDirectory u derived) (hout : u.Vacant out)
    (hrun : (restore u derived diff out).result = .ok restored) :
    ∃ lb ld, t.locateDirectory base = .ok lb ∧ t.locateDirectory derived = .ok ld ∧
      let s := stats.summary
      let shared := (t.filesBelow ld).countP fun e => e ∈ t.filesBelow lb
      stats.baseResources = s.removed + s.modified + shared ∧
      stats.derivedResources = s.added + s.modified + shared ∧
      stats.written.stats.records = s.added + s.removed + s.modified ∧
      restored.records = stats.written.stats.records ∧
      stats.written.stats.payloadBytes = s.retainedBytes ∧
      restored.restored = s.removed + s.modified ∧
      restored.skipped = s.added ∧
      restored.copied = shared ∧
      restored.copied + restored.restored = stats.baseResources ∧
      restored.outputSize = ((t.filesBelow lb).map fun e => e.2.length).sum := by
  obtain ⟨nb, nd, records, x, _, hcompare, hx, -, htree⟩ := ofDirectories_eq_ok hok
  obtain ⟨b, d, hb, hd, hg⟩ := compare_eq_ok hcompare
  obtain ⟨rfl, rfl, lb, ld, hrecorded⟩ := recorded_of_generate ht hb hd hg
  obtain ⟨hbase, hlisted, hsummary, hresult⟩ :=
    stats_of_compare (compare_of_opened hb hd hg) hok
  rw [htree, FileTree.readFile_set_destination ht hx] at hdiff
  obtain ⟨found, d', v, c, hread, hopen, hv, hcounts, -⟩ := restore_eq_ok hrun
  have halike : List.Forall₂ Record.Alike records found := alike_of_read hresult hdiff hread
  obtain ⟨d'', l, hopen', hd'⟩ := hrecorded.derived_opened.reopened hu hderived
  cases Except.ok.inj (hopen.symm.trans hopen')
  obtain ⟨v', lo, hv', hext, hempty⟩ := hout.makeDirectories
  cases hv.symm.trans hv'
  have hc := hrecorded.counts_of_restore hu hd' hext hempty halike hcounts
  obtain ⟨htally, hnb, hnd⟩ := hrecorded.tally ht
  rw [(restore_of_opened hread hopen hv).1, hcounts, hc, htally] at hrun
  cases hrun
  have hwritten := (Encoding.result_ofList_iff.1 hresult).2
  have htotal := Summary.total_ofRecords records
  refine ⟨lb, ld, hrecorded.base_opened.locate, hrecorded.derived_opened.locate, ?_⟩
  dsimp only
  rw [Summary.total] at htotal
  rw [hbase, hlisted, hsummary, hwritten, ← halike.length_eq, ← htotal]
  refine ⟨hnb, hnd, Nat.zero_add _, (Nat.zero_add _).symm, ?_, rfl, rfl, rfl, ?_, rfl⟩
  · rw [Summary.ofRecords_eq]
    exact Nat.zero_add _
  · rw [hnb, Nat.add_comm]

/-- Two files that are shared, and one of each other sort. -/
theorem counters_balance_each_sort :
    let t : FileTree := { entries :=
      [([.text "base"], .directory), ([.text "base", .text "a"], .file [1]),
        ([.text "base", .text "e"], .file []), ([.text "base", .text "s"], .directory),
        ([.text "base", .text "s", .text "b"], .file [2, 2]),
        ([.text "base", .text "x"], .file [4, 4, 4]), ([.text "derived"], .directory),
        ([.text "derived", .text "a"], .file [9]), ([.text "derived", .text "c"], .file [3]),
        ([.text "derived", .text "e"], .file []), ([.text "derived", .text "s"], .directory),
        ([.text "derived", .text "s", .text "b"], .file [2, 2]), ([.text "out"], .directory)] }
    let run := ofDirectories t "base" "derived" "d" {} ⟨none, true⟩
    ∃ stats restored, run.result = .ok stats ∧
      (restore run.tree "derived" "d" "out").result = .ok restored ∧
      stats.summary = ⟨1, 1, 1, 4⟩ ∧ stats.baseResources = 4 ∧ stats.derivedResources = 4 ∧
      restored = ⟨stats.written.stats.records, 2, 2, 1, 6⟩ := by
  intro t run
  have ht : t.WellFormed := by decide +kernel
  have hbase : t.locateDirectory "base" = .ok [.text "base"] := by decide +kernel
  have hl : t.locateDirectory "derived" = .ok [.text "derived"] := by decide +kernel
  have hopen_base : (Directory.openAt t "base").result =
      .ok ⟨"base", ["a", "e", "s/b", "x"], false⟩ :=
    Directory.openAt_of_sorted (by decide +kernel) (by decide +kernel)
  have hopen_derived : (Directory.openAt t "derived").result =
      .ok ⟨"derived", ["a", "c", "e", "s/b"], false⟩ :=
    Directory.openAt_of_sorted (by decide +kernel) (by decide +kernel)
  have hcompare : (compare t "base" "derived" {}).result =
      .ok (4, 4, [.modified "a" [1], .removed "x" [4, 4, 4], .added "c"]) :=
    compare_of_opened hopen_base hopen_derived (by decide +kernel)
  have hd : t.destination "d" = .ok [.text "d"] := by decide +kernel
  obtain ⟨⟨stats, hok⟩, htree⟩ := ofDirectories_of_compare (o := ⟨none, true⟩) hcompare hd
    (s := ⟨3, 4, 4, 0⟩) (by decide +kernel)
  have hrun : run.tree = _ := htree
  have hwf : run.tree.WellFormed := by
    rw [hrun]
    decide +kernel
  have hderived : t.SameDirectory run.tree "derived" := by
    rw [hrun]
    exact FileTree.sameDirectory_set_destination ht hd hl (by decide) _
  have hout : run.tree.isEmptyDirectory "out" = true := by
    rw [hrun]
    decide +kernel
  have hread : read run.tree "d" true =
      .ok [.modified "a" [1], .removed "x" [4, 4, 4], .added "c"] := by
    rw [hrun]
    decide +kernel
  have hplace : run.tree.locateDirectory "derived" = .ok [.text "derived"] := by
    rw [hrun]
    decide +kernel
  have hopen : (Directory.openAt run.tree "derived").result =
      .ok ⟨"derived", ["a", "c", "e", "s/b"], false⟩ := by
    rw [hrun]
    exact Directory.openAt_of_sorted (by decide +kernel) (by decide +kernel)
  obtain ⟨lo, hlo⟩ := FileTree.isEmptyDirectory_eq_true_iff.1 hout
  obtain ⟨hresult, -⟩ :=
    restore_of_opened hread hopen (FileTree.makeDirectories_existing hlo.locate)
  obtain ⟨restored, hrestored⟩ :
      ∃ restored, (restore run.tree "derived" "d" "out").result = .ok restored := by
    rw [hresult, hrun]
    exact ⟨⟨3, 2, 2, 1, 6⟩, by decide +kernel⟩
  have hsummary : stats.summary = ⟨1, 1, 1, 4⟩ := by
    rw [(stats_of_compare hcompare hok).2.2.1]
    decide
  obtain ⟨lb, ld, hlb, hld, hb, hn, -, hrecords, -, hput, hskipped, hcopied, -, hsize⟩ :=
    counters_balance ht hwf hok rfl hderived (.inl hout) hrestored
  cases Except.ok.inj (hlb.symm.trans hbase)
  cases Except.ok.inj (hld.symm.trans hl)
  have hshared : ((t.filesBelow [.text "derived"]).countP fun e =>
      e ∈ t.filesBelow [.text "base"]) = 2 := by decide +kernel
  have hbytes : ((t.filesBelow [.text "base"]).map fun e => e.2.length).sum = 6 := by
    decide +kernel
  rw [hsummary, hshared] at hb hn
  rw [hsummary] at hput hskipped
  rw [hshared] at hcopied
  rw [hbytes] at hsize
  obtain ⟨_, _, _, _, _⟩ := restored
  refine ⟨stats, _, hok, hrestored, hsummary, hb, hn, ?_⟩
  rw [RestoreStats.mk.injEq]
  exact ⟨hrecords, hcopied, hput, hskipped, hsize⟩

end DiffFile
end CollectionDelta
