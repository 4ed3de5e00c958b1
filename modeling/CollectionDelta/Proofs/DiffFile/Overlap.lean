import CollectionDelta.Proofs.DiffFile.Confined
import CollectionDelta.Proofs.DiffFile.RoundTrip

/-!
Restoring into a directory that is not empty, wherever it lies.

* `Compression.Numbered`, `Recorded.eq_of_read`: a diff file is read as the records that were
  written, or not at all.
* `Opened.node?_of_read`: what is read of an open directory after files have been overwritten.
* `DiffFile.Overlaid`: a file of derived that lies where an earlier file of base is put.
* `DiffFile.Filled`: a directory in which some files have been placed; `Filled.place` is one step.
* `DiffFile.Restoring`: what holds after each step of a restoration; `Recorded.restoring_next` is
  one step, `Recorded.restoring_all` a run that succeeds.
* `DiffFile.restored_over`: a restoration that succeeds has brought back every file of base and kept
  every other one; the bytes are those of base, except perhaps for copies of overlaid files.
-/

namespace CollectionDelta

open Directory (Opened contentAt)
open FileTree (ChangedBelow)
open Restoration (Hands handed steps)

/-! ## Reading a diff file -/

/-- A codec that a caller brings along does not take the number of a built-in one. -/
def Compression.Numbered : Compression → Prop
  | custom backend => Codec.builtIn? backend.id = .none
  | _ => True

theorem Reader.start_unsupported {o : ReadOptions} {h : Header} {w rest : Bytes} {s : Stream}
    {n : Nat} {ending : Stream.Ending} {e : FormatError} (hw : h.Written w)
    (hcodec : backendFor o h.codec = .error e) (hs : s.Holds n (w ++ rest) ending) :
    ∃ t, start o s = (.error e, t) := by
  obtain ⟨t, hdecode, -⟩ := Header.accepts_decode.complete hw hs
  exact ⟨t, by simp only [start, hdecode, hcodec]⟩

namespace DiffFile

variable {t u v s : FileTree} {base derived d : Directory} {lb ld l lo : Location}
  {records : List Record} {out path name : String} {bytes : Bytes}

/-- No reader without options has a codec with a number of its own. -/
theorem read_unsupported {backend : Backend} {checksum : Bool} (hlen : records.length < 2 ^ 64)
    (hid : Codec.builtIn? backend.id = none)
    (hread : u.readFile path = .ok (Encoding.ofRecords ⟨some backend, checksum⟩ records).bytes) :
    ∃ e, read u path true = .error e := by
  have hcodec : Reader.backendFor { verify := true }
      (Encoding.header ⟨some backend, checksum⟩ records).codec =
        .error (.unsupported (.codec backend.id)) := by
    simp only [Encoding.header, Option.map_some, Reader.backendFor, Reader.backendFor.builtIn, hid]
  rw [Encoding.bytes_ofRecords] at hread
  obtain ⟨r, hstart⟩ := Reader.start_unsupported (Encoding.header_written hlen) hcodec
    (Stream.holds_ofBytes (_ ++ (Encoding.ofList ⟨some backend, checksum⟩ {} records).bytes))
  refine ⟨.format (.unsupported (.codec backend.id)), ?_⟩
  rw [read, FileTree.openFile_of_readFile hread]
  simp only [readRecords, hstart, Except.mapError]

/-- What is read of a diff file are the records that were written. -/
theorem Recorded.eq_of_read (h : Recorded t base derived lb ld records) (ht : t.WellFormed)
    {c : Compression} (hc : c.Numbered) {checksum : Bool} {stats : WriteStats}
    (hok : (Encoding.ofRecords ⟨c.backend?, checksum⟩ records).result = .ok stats)
    (hread : u.readFile path = .ok (Encoding.ofRecords ⟨c.backend?, checksum⟩ records).bytes)
    {found : List Record} (hfound : read u path true = .ok found) : found = records := by
  have hbuiltIn : c.BuiltIn → found = records := fun hb =>
    Except.ok.inj (hfound.symm.trans (h.read_eq ht hb hok hread))
  cases c with
  | custom backend =>
    obtain ⟨e, herror⟩ := read_unsupported (h.length_lt ht) hc hread
    rw [herror] at hfound
    cases hfound
  | none => exact hbuiltIn trivial
  | lzma => exact hbuiltIn trivial
  | zlib level => exact hbuiltIn trivial

end DiffFile

/-! ## Reading what has been overwritten -/

/-- An open directory serves the bytes that its files have now. -/
theorem Directory.Opened.node?_of_read {t u : FileTree} {l : Location} {d : Directory}
    {name : String} {bytes : Bytes} (hd : Opened t l d) (ht : t.WellFormed) (hu : t.Retains u)
    (hcurrent : u.current = t.current) (hname : name ∈ d.names)
    (hread : (d.toCollection u).read name = .ok bytes) :
    u.node? (l ++ .ofName name) = some (.file bytes) := by
  obtain ⟨b, hb⟩ := hd.mem_names.1 hname
  obtain ⟨b', hb'⟩ := hu.file hb
  simp only [toCollection, guarded, hd.closed, Bool.false_eq_true, if_false] at hread
  cases hpath : ResourceName.path d.root name with
  | error f =>
    rw [hpath] at hread
    cases hread
  | ok path =>
    obtain ⟨-, rfl⟩ := ResourceName.path_eq_ok hpath
    rw [hpath, Except.bind] at hread
    have hsize := (FileTree.checkPath_eq_ok_iff.1 (checkPath_of_readFile hread)).2.2
    have hlocate := hu.locate hcurrent (ht.locate_below hd.locate hb (.refl t) hsize)
    rw [FileTree.readFile_of_locate hlocate hb'] at hread
    rw [hb', Except.ok.inj hread]

/-- A directory with files that are found in order. -/
theorem Directory.openAt_of_sorted {t : FileTree} {root : String} {names : List String}
    (hscan : (scan t (.stored t) (FileTree.maxPath + 1) root "").result = .ok names)
    (hsorted : names.Pairwise fun a b => Collection.nameLe a b = true) :
    (openAt t root).result = .ok ⟨root, names, false⟩ := by
  rw [openAt, result_openBy, hscan, Except.map, List.mergeSort_of_pairwise hsorted]

/-! ## Filling a directory -/

namespace DiffFile

variable {t u v s : FileTree} {base derived d : Directory} {lb ld l lo way : Location}
  {records : List Record} {placed : List (String × Bytes)} {out name : String} {bytes : Bytes}

/-- A file is the same in base and in derived, and where it lies in derived, another file of both
is put, the name of which comes before its own. -/
def Overlaid (t u : FileTree) (lb ld lo way : Location) : Prop :=
  u.node? (ld ++ way) = t.node? (lb ++ way) ∧
    ∃ way' b b', t.node? (lb ++ way') = some (.file b) ∧ u.node? (ld ++ way') = some (.file b') ∧
      Bytes.ofText (Directory.textOf way') < Bytes.ofText (Directory.textOf way) ∧
      lo ++ way' = ld ++ way

/-- In place, each file takes the place of its own. -/
theorem not_overlaid_in_place (t u : FileTree) (lb lo way : Location) :
    ¬ Overlaid t u lb lo lo way := by
  rintro ⟨-, way', -, -, -, -, hlt, heq⟩
  rw [List.append_cancel_left heq] at hlt
  exact List.lt_irrefl _ hlt

theorem not_overlaid_of_apart (t u : FileTree) (lb : Location) {ld lo : Location} (way : Location)
    (hbelow : ¬ ld <+: lo) (habove : ¬ lo <+: ld) : ¬ Overlaid t u lb ld lo way := by
  rintro ⟨-, way', -, -, -, -, -, heq⟩
  have hld : ld <+: lo ++ way' := heq ▸ List.prefix_append ld way
  rcases List.prefix_or_prefix_of_prefix hld (List.prefix_append lo way') with h | h
  · exact hbelow h
  · exact habove h

/-- From the tree `v` to the tree `s`, the files have been placed below the location `lo`; files
elsewhere are as they were. -/
structure Filled (v : FileTree) (lo : Location) (placed : List (String × Bytes)) (s : FileTree) :
    Prop where
  changed : ChangedBelow lo v s
  node?_placed : ∀ {name b}, (name, b) ∈ placed → s.node? (lo ++ .ofName name) = some (.file b)
  node?_kept : ∀ {l b}, v.node? l = some (.file b) →
    (∀ name ∈ placed.map Prod.fst, l ≠ lo ++ .ofName name) → s.node? l = some (.file b)

theorem Filled.start (v : FileTree) (lo : Location) : Filled v lo [] v :=
  ⟨.refl lo v, nofun, fun hb _ => hb⟩

/-- A file of another name can come to lie in the directory without a change to the others. -/
theorem Filled.place (h : Filled v lo placed s) (hv : v.Settled out lo)
    (hname : name ∉ placed.map Prod.fst) (hplace : placeBelow out s name bytes = (.ok (), t)) :
    Filled v lo (placed ++ [(name, bytes)]) t := by
  have hs := hv.of_changedBelow h.changed
  have hchanged := hs.changedBelow_placeBelow name bytes
  rw [hplace] at hchanged
  obtain ⟨u, hext, -, ⟨f, hfails⟩ | ⟨-, hset⟩⟩ := hs.placeBelow_cases name bytes
  · rw [hplace] at hfails
    cases hfails
  · rw [hplace] at hset
    cases hset
    have hne : lo ++ Location.ofName name ≠ [] :=
      List.append_ne_nil_of_right_ne_nil lo (Location.ofName_ne_nil name)
    refine ⟨h.changed.trans hchanged, fun {n b} hmem => ?_, fun {l b} hb hkept => ?_⟩
    · rw [FileTree.node?_set u hne]
      rcases List.mem_append.1 hmem with hmem | hmem
      · have hother : lo ++ Location.ofName n ≠ lo ++ .ofName name := fun heq => by
          have hn := Location.ofName_injective (List.append_cancel_left heq)
          exact hname (hn ▸ List.mem_map_of_mem hmem)
        rw [if_neg hother]
        exact hext.node?_eq (h.node?_placed hmem)
      · cases List.mem_singleton.1 hmem
        rw [if_pos rfl]
    · rw [List.map_append, List.forall_mem_append] at hkept
      rw [FileTree.node?_set u hne, if_neg (hkept.2 name (List.mem_singleton_self name))]
      exact hext.node?_eq (h.node?_kept hb hkept.1)

/-! ## A restoration that succeeds -/

/-- What comes back before a listed name is listed, too, and before it. -/
theorem before_of_restoredOrder {lb ld before rest : List String} (h : Ascending ld)
    (horder : restoredOrder lb ld = before ++ name :: rest) (hname : name ∈ ld) :
    ∀ n ∈ before, n ∈ ld ∧ Bytes.ofText n < Bytes.ofText name := by
  have hpairs : (restoredOrder lb ld).Pairwise fun a b =>
      b ∈ ld → a ∈ ld ∧ Bytes.ofText a < Bytes.ofText b := by
    rw [restoredOrder, eraseDups_of_nodup h.nodup, List.pairwise_append]
    refine ⟨?_, ?_, fun a _ b hb hlisted => ?_⟩
    · refine (List.Pairwise.filter _ h).imp_of_mem fun ha _ hlt _ => ?_
      exact ⟨List.mem_of_mem_filter ha, hlt⟩
    · refine List.pairwise_of_forall_mem_list fun a _ b hb hlisted => ?_
      exact absurd hlisted (of_decide_eq_true (List.mem_filter.1 hb).2)
    · exact absurd hlisted (of_decide_eq_true (List.mem_filter.1 hb).2)
  rw [horder, List.pairwise_append] at hpairs
  exact fun n hn => hpairs.2.2 n hn name (List.mem_cons_self ..) hname

/-- What is so after each step of a restoration into `lo`, which began in the tree `v`. -/
structure Restoring (t u v : FileTree) (lb ld lo : Location) (base : Directory)
    (placed : List (String × Bytes)) (s : FileTree) : Prop where
  filled : Filled v lo placed s
  mem_names : ∀ n ∈ placed.map Prod.fst, n ∈ base.names
  content : ∀ e ∈ placed, Overlaid t u lb ld lo (.ofName e.1) ∨ e.2 = contentAt t lb e.1

theorem Restoring.start (t u v : FileTree) (lb ld lo : Location) (base : Directory) :
    Restoring t u v lb ld lo base [] v := ⟨.start v lo, nofun, nofun⟩

namespace Recorded

/-- With derived's content for the copies, the steps hand on the files of base. -/
theorem mem_of_handed (h : Recorded t base derived lb ld records) {step : Restoration.Step}
    (hstep : step ∈ steps records derived.names)
    (hhanded : handed (contentAt t ld) step = some (name, bytes)) :
    name ∈ base.names ∧ bytes = contentAt t lb name := by
  have hmem := List.mem_filterMap.2 ⟨step, hstep, hhanded⟩
  rw [h.records_eq, handed_expected h.base_opened.ascending.nodup, List.mem_map] at hmem
  obtain ⟨n, hn, heq⟩ := hmem
  cases heq
  exact ⟨mem_restoredOrder.1 hn, rfl⟩

/-- A copy has the bytes of base, unless the file of derived has been overlaid. -/
theorem eq_content_of_read {rest : List String} (h : Recorded t base derived lb ld records)
    (hu : u.WellFormed) (hd : Directory.Reopened t ld derived u l d) (hv : u.Extends v)
    (hs : Restoring t u v lb l lo base placed s)
    (hnext : restoredOrder base.names derived.names = placed.map Prod.fst ++ name :: rest)
    (hclear : ¬ Overlaid t u lb l lo (.ofName name))
    (hcopy : .copy name ∈ steps records derived.names)
    (hread : (d.toCollection s).read name = .ok bytes) : bytes = contentAt t lb name := by
  obtain ⟨hbase, hcontent⟩ := h.mem_of_handed hcopy rfl
  have hlisted : name ∈ derived.names := by
    rw [h.records_eq] at hcopy
    exact (Restoration.mem_of_copy h.base_opened.ascending.nodup hcopy).2
  obtain ⟨b, hb⟩ := hd.opened.mem_names.1 (hd.names_eq ▸ hlisted)
  obtain ⟨b', hb'⟩ := h.base_opened.mem_names.1 hbase
  have hsame : b = b' := by
    rw [← Directory.contentAt_eq hb, hd.content_eq, hcontent, Directory.contentAt_eq hb']
  -- nothing has been placed where the file lies, so that it is read as it was
  have hkept := hs.filled.node?_kept (hv.node?_eq hb) fun n hn heq => by
    obtain ⟨hn', hlt⟩ := before_of_restoredOrder h.derived_opened.ascending hnext hlisted n hn
    obtain ⟨b₁, hb₁⟩ := h.base_opened.mem_names.1 (hs.mem_names n hn)
    obtain ⟨b₂, hb₂⟩ := hd.opened.mem_names.1 (hd.names_eq ▸ hn')
    refine hclear ⟨by rw [hb, hb', hsame], .ofName n, b₁, b₂, hb₁, hb₂, ?_, heq.symm⟩
    rwa [Location.textOf_ofName, Location.textOf_ofName]
  have hnow := hd.opened.node?_of_read hu (hv.retains.trans hs.filled.changed.retains)
    (hs.filled.changed.current_eq.trans hv.current_eq) (hd.names_eq ▸ hlisted) hread
  rw [hkept] at hnow
  cases hnow
  rw [hsame, Directory.contentAt_eq hb']

/-- One more resource has been handed on and placed. -/
theorem restoring_next {s' : FileTree} {step : Restoration.Step} {rest : List String}
    (h : Recorded t base derived lb ld records) (hu : u.WellFormed)
    (hd : Directory.Reopened t ld derived u l d) (hv : u.Extends v) (hout : v.Settled out lo)
    (hstep : step ∈ steps records derived.names)
    (hnext : restoredOrder base.names derived.names = placed.map Prod.fst ++ name :: rest)
    (hs : Restoring t u v lb l lo base placed s)
    (hhands : Hands (d.toCollection s) step name bytes)
    (hplace : placeBelow out s name bytes = (.ok (), s')) :
    Restoring t u v lb l lo base (placed ++ [(name, bytes)]) s' := by
  have hbase : name ∈ base.names ∧
      (Overlaid t u lb l lo (.ofName name) ∨ bytes = contentAt t lb name) := by
    cases hhands with
    | put =>
      obtain ⟨hbase, hcontent⟩ := h.mem_of_handed hstep rfl
      exact ⟨hbase, .inr hcontent⟩
    | copy hread =>
      refine ⟨(h.mem_of_handed hstep rfl).1, or_iff_not_imp_left.2 fun hclear => ?_⟩
      exact h.eq_content_of_read hu hd hv hs hnext hclear hstep hread
  have hname : name ∉ placed.map Prod.fst := by
    have hnodup := nodup_restoredOrder h.base_opened.ascending.nodup derived.names
    rw [hnext, List.nodup_append] at hnodup
    exact fun hmem => hnodup.2.2 name hmem name (List.mem_cons_self ..) rfl
  refine ⟨hs.filled.place hout hname hplace, ?_, ?_⟩
  · rw [List.map_append, List.forall_mem_append]
    exact ⟨hs.mem_names, List.forall_mem_singleton.2 hbase.1⟩
  · rw [List.forall_mem_append]
    exact ⟨hs.content, List.forall_mem_singleton.2 hbase.2⟩

/-- A restoration that succeeds has placed a file for each one of base. -/
theorem restoring_all (h : Recorded t base derived lb ld records) (hu : u.WellFormed)
    (hd : Directory.Reopened t ld derived u l d) (hv : u.Extends v) (hout : v.Settled out lo)
    {c : Counts} :
    let run := Restoration.restore (fun s => d.toCollection s) (placeBelow out) records v
    run.result = .ok c → ∃ placed, Restoring t u v lb l lo base placed run.state ∧
      ∀ n ∈ base.names, n ∈ placed.map Prod.fst := by
  intro run hok
  have hnodup := h.base_opened.ascending.nodup
  have hnames : (d.toCollection v).names = .ok derived.names :=
    hd.names_eq ▸ hd.opened.listing_eq v
  have htargets : (steps records derived.names).filterMap Restoration.Step.target? =
      restoredOrder base.names derived.names := by
    rw [← Restoration.map_fst_handed (contentAt t ld), h.records_eq, handed_expected hnodup,
      List.map_map]
    exact List.map_id _
  obtain ⟨placed, hplaced, hrestoring⟩ := Restoration.restore_placed h.fits
    (Restoring t u v lb l lo base) (h.restoring_next hu hd hv hout) (fun _ => rfl) hnames
    htargets.symm (.start t u v lb l lo base) hok
  refine ⟨placed, hrestoring, fun n hn => ?_⟩
  rwa [hplaced, mem_restoredOrder]

end Recorded

/-! ## Restoring over files -/

variable {base derived diff out : String} {opts : DiffOptions} {c : Compression} {checksum : Bool}
  {stats : DiffStats} {restored : RestoreStats}

/-- A restoration of which all but the placing has gone well. -/
theorem restore_of_opened {d : Directory} (hread : read u diff true = .ok records)
    (hopen : (Directory.openAt u derived).result = .ok d)
    (hv : u.makeDirectories out = (.ok (), v)) :
    let run := Restoration.restore (fun s => d.toCollection s) (placeBelow out) records v
    (restore u derived diff out).result = (run.result.mapError FileError.delta).map (fun c =>
        ⟨records.length, c.copied, c.restored, c.skipped, c.bytes⟩) ∧
      (restore u derived diff out).tree = run.state := by
  simp only [restore, hread, hopen, hv, and_self]

/-- What a restoration that succeeds has gone through. -/
theorem restore_eq_ok (h : (restore u derived diff out).result = .ok restored) :
    ∃ records d v c, read u diff true = .ok records ∧
      (Directory.openAt u derived).result = .ok d ∧ u.makeDirectories out = (.ok (), v) ∧
      let run := Restoration.restore (fun s => d.toCollection s) (placeBelow out) records v
      run.result = .ok c ∧ (restore u derived diff out).tree = run.state := by
  cases hread : read u diff true with
  | error e =>
    simp only [restore, hread] at h
    cases h
  | ok records =>
    cases hopen : (Directory.openAt u derived).result with
    | error f =>
      simp only [restore, hread, hopen] at h
      cases h
    | ok d =>
      cases hv : u.makeDirectories out with
      | mk made v =>
        cases made with
        | error f =>
          simp only [restore, hread, hopen, hv] at h
          cases h
        | ok _ =>
          obtain ⟨hresult, htree⟩ := restore_of_opened hread hopen hv
          rw [hresult] at h
          cases hrun : (Restoration.restore (fun s => d.toCollection s) (placeBelow out) records
              v).result with
          | error e =>
            rw [hrun] at h
            cases h
          | ok c => exact ⟨records, d, v, c, rfl, rfl, rfl, hrun, htree⟩

/-- The difference of two directories that can be opened. -/
theorem compare_of_opened {b d : Directory} (hb : (Directory.openAt t base).result = .ok b)
    (hd : (Directory.openAt t derived).result = .ok d)
    (hg : (Difference.generate opts (b.toCollection t) (d.toCollection t)).result = .ok records) :
    (compare t base derived opts).result = .ok (b.names.length, d.names.length, records) := by
  simp only [compare, Traced.result_bind, Traced.result_mapError, hb, hd, hg, Except.mapError,
    Except.bind, Traced.pure_result]

/-- If the difference of two directories is restored from the same derived directory and the run
succeeds, wherever the output lies and whatever was there: every file of base is below the output,
with its bytes, except perhaps for copies of files that are overlaid, and the files that were there
under other names are as they were. -/
theorem restored_over (ht : t.WellFormed) (hu : u.WellFormed) (hc : c.Numbered)
    (hok : (ofDirectories t base derived diff opts ⟨c.backend?, checksum⟩).result = .ok stats)
    (hdiff : u.readFile diff =
      (ofDirectories t base derived diff opts ⟨c.backend?, checksum⟩).tree.readFile diff)
    (hderived : t.SameDirectory u derived) (hout : u.Unlinked out)
    (hrun : (restore u derived diff out).result = .ok restored) :
    let w := (restore u derived diff out).tree
    ∃ lb ld lo, t.locateDirectory base = .ok lb ∧ u.locateDirectory derived = .ok ld ∧
      w.LeadsTo out lo ∧
      (∀ way b, t.node? (lb ++ way) = some (.file b) →
        ∃ b', w.node? (lo ++ way) = some (.file b') ∧ (Overlaid t u lb ld lo way ∨ b' = b)) ∧
      ∀ way b, u.node? (lo ++ way) = some (.file b) →
        (∀ b', t.node? (lb ++ way) ≠ some (.file b')) → w.node? (lo ++ way) = some (.file b) := by
  intro w
  obtain ⟨b, d, lb, _, records, rfl, rfl, hrecorded, l, s, hl, hs, htree⟩ := recorded_of_ok ht hok
  rw [htree, FileTree.readFile_set_destination ht hl] at hdiff
  obtain ⟨_, _, v, counts, hread, hopen, hv, hcounts, hw⟩ := restore_eq_ok hrun
  cases hrecorded.eq_of_read ht hc hs hdiff hread
  obtain ⟨d', ld, hopen', hd'⟩ := hrecorded.derived_opened.reopened hu hderived
  cases Except.ok.inj (hopen.symm.trans hopen')
  obtain ⟨lo, hsettled⟩ := hout.settled hu hv
  have hext : u.Extends v := .of_makeDirectories hv
  obtain ⟨placed, hs, hnames⟩ := hrecorded.restoring_all hu hd' hext hsettled hcounts
  rw [← hw] at hs
  refine ⟨lb, ld, lo, hrecorded.base_opened.locate, hd'.root_eq ▸ hd'.opened.locate,
    hsettled.leads.of_changedBelow hs.filled.changed, fun way b hb => ?_,
    fun way b hb hother => hs.filled.node?_kept (hext.node?_eq hb) fun n hn heq => ?_⟩
  · obtain ⟨name, hname, rfl⟩ := hrecorded.base_opened.exists_name ht hb
    obtain ⟨⟨_, b'⟩, hmem, rfl⟩ := List.mem_map.1 (hnames name hname)
    refine ⟨b', hs.filled.node?_placed hmem, (hs.content _ hmem).imp_right fun heq => ?_⟩
    exact heq.trans (Directory.contentAt_eq hb)
  · obtain ⟨b', hb'⟩ := hrecorded.base_opened.mem_names.1 (hs.mem_names n hn)
    exact hother b' (List.append_cancel_left heq ▸ hb')

/-- Derived itself becomes base, with a modified file, a copied one and one that stays. -/
theorem restored_over_in_place :
    let t : FileTree := { entries :=
      [([.text "base"], .directory), ([.text "base", .text "a"], .file (List.replicate 64 1)),
        ([.text "base", .text "s"], .directory), ([.text "base", .text "s", .text "b"], .file [2]),
        ([.text "derived"], .directory), ([.text "derived", .text "a"], .file [9]),
        ([.text "derived", .text "c"], .file [3]), ([.text "derived", .text "s"], .directory),
        ([.text "derived", .text "s", .text "b"], .file [2])] }
    let run := ofDirectories t "base" "derived" "d" {} ⟨Compression.lzma.backend?, true⟩
    let w := (restore run.tree "derived" "d" "derived").tree
    (∃ stats, run.result = .ok stats) ∧
      (∃ restored, (restore run.tree "derived" "d" "derived").result = .ok restored) ∧
      (∀ way b, t.node? (.text "base" :: way) = some (.file b) →
        w.node? (.text "derived" :: way) = some (.file b)) ∧
      w.node? [.text "derived", .text "c"] = some (.file [3]) := by
  intro t run w
  have ht : t.WellFormed := by decide +kernel
  have hbase : t.locateDirectory "base" = .ok [.text "base"] := by decide +kernel
  have hl : t.locateDirectory "derived" = .ok [.text "derived"] := by decide +kernel
  have hopen_base : (Directory.openAt t "base").result = .ok ⟨"base", ["a", "s/b"], false⟩ :=
    Directory.openAt_of_sorted (by decide +kernel) (by decide +kernel)
  have hopen_derived : (Directory.openAt t "derived").result =
      .ok ⟨"derived", ["a", "c", "s/b"], false⟩ :=
    Directory.openAt_of_sorted (by decide +kernel) (by decide +kernel)
  have hgenerate : (Difference.generate {} (Directory.toCollection t ⟨"base", ["a", "s/b"], false⟩)
      (Directory.toCollection t ⟨"derived", ["a", "c", "s/b"], false⟩)).result =
        .ok [.modified "a" (List.replicate 64 1), .added "c"] := by decide +kernel
  have hcompare := compare_of_opened hopen_base hopen_derived hgenerate
  obtain ⟨-, -, _, _, hrecorded⟩ := recorded_of_generate ht hopen_base hopen_derived hgenerate
  have hd : t.destination "d" = .ok [.text "d"] := by decide +kernel
  have hc : Compression.lzma.BuiltIn := trivial
  have hwritable : Writable [.modified "a" (List.replicate 64 1), .added "c"] :=
    ⟨by decide +kernel, by decide +kernel, by decide⟩
  obtain ⟨s, hs⟩ := ofRecords_of_builtIn hc true hwritable
  obtain ⟨⟨stats, hok⟩, htree⟩ := ofDirectories_of_compare hcompare hd hs
  have hrun : run.tree = _ := htree
  have hlength := Encoding.length_bytes_le hs
  have hwf : run.tree.WellFormed := by
    have hempty : (t.set [.text "d"] (.file [])).WellFormed := by decide +kernel
    rw [hrun]
    refine hempty.set_file (Nat.lt_of_le_of_lt hlength ?_)
    decide +kernel
  have hplace : run.tree.locateDirectory "derived" = .ok [.text "derived"] := by
    rw [hrun]
    decide +kernel
  have hread : read run.tree "d" true =
      .ok [.modified "a" (List.replicate 64 1), .added "c"] := by
    rw [hrun]
    exact hrecorded.read_eq ht hc hs (FileTree.readFile_set_destination ht hd _)
  have hopen : (Directory.openAt run.tree "derived").result =
      .ok ⟨"derived", ["a", "c", "s/b"], false⟩ := by
    rw [hrun]
    exact Directory.openAt_of_sorted (by decide +kernel) (by decide +kernel)
  obtain ⟨hresult, hw⟩ := restore_of_opened hread hopen (FileTree.makeDirectories_existing hplace)
  have hrestored : (restore run.tree "derived" "d" "derived").result = .ok ⟨2, 1, 1, 1, 65⟩ := by
    rw [hresult, hrun]
    decide +kernel
  have hout : w.LeadsTo "derived" [.text "derived"] := by
    refine FileTree.leadsTo_of_locateDirectory ?_
    rw [show w = _ from hw, hrun]
    decide +kernel
  have hderived : t.SameDirectory run.tree "derived" := by
    rw [hrun]
    exact FileTree.sameDirectory_set_destination ht hd hl (by decide) _
  have hfree : run.tree.LinkFree [] := FileTree.linkFree_root (by rw [hrun]; decide +kernel)
  obtain ⟨lb, ld, lo, hlb, hld, hlo, hback, hkept⟩ := restored_over ht hwf (c := .lzma) trivial
    hok rfl hderived (hfree.unlinked "derived") hrestored
  cases Except.ok.inj (hlb.symm.trans hbase)
  cases Except.ok.inj (hld.symm.trans hplace)
  cases hlo.unique hout
  refine ⟨⟨stats, hok⟩, ⟨_, hrestored⟩, fun way b hb => ?_, hkept [.text "c"] [3] ?_ ?_⟩
  · obtain ⟨b', hb', hover | rfl⟩ := hback way b hb
    · exact absurd hover (not_overlaid_in_place t run.tree _ _ way)
    · exact hb'
  · rw [hrun]
    decide +kernel
  · intro b' hb'
    have hnone : t.node? [.text "base", .text "c"] = none := by decide +kernel
    rw [List.singleton_append, hnone] at hb'
    cases hb'

/-- The output is above derived: `d/x` is put where the file `x` of derived lies, and that is copied
to `x` then. -/
theorem restored_over_overlaid :
    let t : FileTree := { entries :=
      [([.text "base"], .directory), ([.text "base", .text "d"], .directory),
        ([.text "base", .text "d", .text "x"], .file [0x31]),
        ([.text "base", .text "x"], .file [0x32]), ([.text "out"], .directory),
        ([.text "out", .text "d"], .directory), ([.text "out", .text "d", .text "d"], .directory),
        ([.text "out", .text "d", .text "d", .text "x"], .file [0x31]),
        ([.text "out", .text "d", .text "x"], .file [0x32])] }
    let run := ofDirectories t "base" "out/d" "diff" {} {}
    t.WellFormed ∧ t.LinkFree [] ∧ (∃ stats, run.result = .ok stats) ∧
      t.SameDirectory run.tree "out/d" ∧
      (restore run.tree "out/d" "diff" "out").result = .ok ⟨0, 2, 0, 0, 2⟩ ∧
      t.node? [.text "base", .text "x"] = some (.file [0x32]) ∧
      (restore run.tree "out/d" "diff" "out").tree.node? [.text "out", .text "x"] =
        some (.file [0x31]) := by
  intro t run
  have ht : t.WellFormed := by decide +kernel
  have hbase : t.locateDirectory "base" = .ok [.text "base"] := by decide +kernel
  have hl : t.locateDirectory "out/d" = .ok [.text "out", .text "d"] := by decide +kernel
  have hopen_base : (Directory.openAt t "base").result = .ok ⟨"base", ["d/x", "x"], false⟩ :=
    Directory.openAt_of_sorted (by decide +kernel) (by decide +kernel)
  have hopen_derived : (Directory.openAt t "out/d").result =
      .ok ⟨"out/d", ["d/x", "x"], false⟩ :=
    Directory.openAt_of_sorted (by decide +kernel) (by decide +kernel)
  have hcompare : (compare t "base" "out/d" {}).result = .ok (2, 2, []) :=
    compare_of_opened hopen_base hopen_derived (by decide +kernel)
  have hd : t.destination "diff" = .ok [.text "diff"] := by decide +kernel
  obtain ⟨hok, htree⟩ := ofDirectories_of_compare (o := {}) hcompare hd (s := ⟨0, 0, 0, 0⟩)
    (by decide +kernel)
  have hrun : run.tree = _ := htree
  have hplace : run.tree.locateDirectory "out/d" = .ok [.text "out", .text "d"] := by
    rw [hrun]
    decide +kernel
  have hout : run.tree.locateDirectory "out" = .ok [.text "out"] := by
    rw [hrun]
    decide +kernel
  have hread : read run.tree "diff" true = .ok [] := by
    rw [hrun]
    decide +kernel
  have hopen : (Directory.openAt run.tree "out/d").result =
      .ok ⟨"out/d", ["d/x", "x"], false⟩ := by
    rw [hrun]
    exact Directory.openAt_of_sorted (by decide +kernel) (by decide +kernel)
  obtain ⟨hresult, hw⟩ := restore_of_opened hread hopen (FileTree.makeDirectories_existing hout)
  refine ⟨ht, FileTree.linkFree_root (by decide +kernel), hok, ?_, ?_, by decide +kernel, ?_⟩
  · rw [hrun]
    exact FileTree.sameDirectory_set_destination ht hd hl (by decide) _
  · rw [hresult, hrun]
    decide +kernel
  · rw [hw, hrun]
    decide +kernel

end DiffFile
end CollectionDelta
