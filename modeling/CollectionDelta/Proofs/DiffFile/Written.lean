import CollectionDelta.Proofs.DiffFile.Digested
import CollectionDelta.Proofs.Difference.Answers
import CollectionDelta.Proofs.Directory
import CollectionDelta.Proofs.Format.BuiltIn
import CollectionDelta.Proofs.RoundTrip

/-!
The diff file of two directories.

* `Compression.BuiltIn`: the codecs that every reader has; `Compression.BuiltIn.lossless` says that
  they lose nothing.
* `Directory.Opened.steady`: an open directory is a collection that gives no wrong answers.
* `DiffFile.write_eq_ok_iff`: when a diff file is written, and what it holds then.
* `DiffFile.ofDirectories_eq_ok`: what a difference that was written has done, in order;
  `ofDirectories_of_compare` says when it can be written.
* `DiffFile.Recorded`: two directories, and the records of their difference; `recorded_of_generate`
  says that these are what is found between the two, `recorded_of_ok` that there are such if the
  difference could be written.
* `Recorded.read_eq`: the diff file is read as these records.
-/

namespace CollectionDelta

/-! ## Codecs -/

/-- A codec that every reader has. -/
def Compression.BuiltIn : Compression → Prop
  | none | lzma | zlib _ => True
  | custom _ => False

theorem Compression.BuiltIn.lossless {c : Compression} (h : c.BuiltIn) :
    ∀ p, c.backend? = some p → p.LosslessWithin (2 ^ 64) := by
  intro p hp
  cases c with
  | none => cases hp
  | lzma =>
    cases hp
    exact Codec.Unlimited.lzma.losslessWithin
  | zlib level =>
    cases hp
    exact (Codec.Unlimited.zlib level).losslessWithin
  | custom backend => exact h.elim

theorem provides_builtIn {c : Compression} (h : c.BuiltIn) (verify : Bool) :
    ReadOptions.Provides { verify } c.backend? := by
  cases c with
  | none => exact ⟨.none, rfl, nofun⟩
  | lzma => exact ⟨some Codec.lzma, rfl, fun p hp => ⟨p, hp, rfl⟩⟩
  | zlib level =>
    refine ⟨some (Codec.zlib Codec.defaultLevel), rfl, fun p hp => ⟨_, rfl, ?_⟩⟩
    cases hp
    rfl
  | custom backend => exact h.elim

namespace Encoding

variable {o : WriteOptions} {s stats : WriteStats} {records : List Record}

theorem name_le_of_ofRecord {r : Record} (h : (ofRecord o s r).result = .ok stats) :
    (Bytes.ofText r.name).length ≤ maxNameLength := by
  refine Nat.le_of_not_lt fun hlong => ?_
  rw [ofRecord, if_pos hlong] at h
  cases h

theorem name_le_of_ofList (h : (ofList o s records).result = .ok stats) :
    ∀ r ∈ records, (Bytes.ofText r.name).length ≤ maxNameLength := by
  induction records generalizing s with
  | nil => exact fun _ hr => nomatch hr
  | cons r records ih =>
    rw [ofList] at h
    split at h
    · cases h
    · next pieces t hr =>
      intro r' hr'
      rcases List.mem_cons.1 hr' with rfl | hr'
      · have hresult : (ofRecord o s r').result = .ok t := by rw [hr]
        exact name_le_of_ofRecord hresult
      · exact ih h r' hr'

end Encoding

namespace Directory

variable {t u : FileTree} {l : Location} {d : Directory} {name : String} {b : Bytes}

/-! ## Open directories as collections -/

/-- The bytes of the file that a name stands for. -/
def contentAt (t : FileTree) (l : Location) (name : String) : Bytes :=
  match t.node? (l ++ .ofName name) with
  | some (.file b) => b
  | _ => []

theorem contentAt_eq (hb : t.node? (l ++ .ofName name) = some (.file b)) :
    contentAt t l name = b := by
  rw [contentAt, hb]

/-- A resource is served only if its path can be. -/
theorem path_of_answer {α : Type} {root : String} {access : String → Except Fault α} {a : α}
    (hplain : Path.PlainName name)
    (haccess : ∀ path a, access path = .ok a → FileTree.checkPath path = .ok ())
    (h : (ResourceName.path root name).bind access = .ok a) :
    '\\' ∉ name.toList ∧ (Path.join root name).utf8ByteSize ≤ FileTree.maxPath := by
  rw [ResourceName.path_eq root hplain] at h
  split at h
  · cases h
  · next hslash =>
    exact ⟨hslash, (FileTree.checkPath_eq_ok_iff.1 (haccess _ a h)).2.2⟩

theorem checkPath_of_stat {path : String} {n : Node} (h : t.stat path = .ok n) :
    FileTree.checkPath path = .ok () := by
  cases hlocate : t.locate path with
  | error f => simp [FileTree.stat, hlocate, bind, Except.bind] at h
  | ok l => exact (FileTree.locate_eq_ok_iff.1 hlocate).1

theorem checkPath_of_readFile {path : String} (h : t.readFile path = .ok b) :
    FileTree.checkPath path = .ok () := by
  cases hstat : t.stat path with
  | error f => simp [FileTree.readFile, hstat, bind, Except.bind] at h
  | ok n => exact checkPath_of_stat hstat

theorem checkPath_of_openFile {path : String} {s : Stream} (h : t.openFile path = .ok s) :
    FileTree.checkPath path = .ok () := by
  cases hstat : t.stat path with
  | error f => simp [FileTree.openFile, hstat, bind, Except.bind] at h
  | ok n => exact checkPath_of_stat hstat

/-- A listed name that is served is valid, and its path is not too long. -/
theorem Opened.path_of_answered (hd : Opened t l d) (h : t.WellFormed) (hname : name ∈ d.names)
    (hanswered : (∃ b, (d.toCollection t).read name = .ok b) ∨
      ∃ s, (d.toCollection t).stream name = .ok s) :
    '\\' ∉ name.toList ∧ (Path.join d.root name).utf8ByteSize ≤ FileTree.maxPath := by
  obtain ⟨b, hb⟩ := hd.mem_names.1 hname
  have hplain := h.plainName hb
  simp only [toCollection, guarded, hd.closed, Bool.false_eq_true, if_false] at hanswered
  rcases hanswered with ⟨b, hread⟩ | ⟨s, hstream⟩
  · exact path_of_answer hplain (fun _ _ => checkPath_of_readFile) hread
  · exact path_of_answer hplain (fun _ _ => checkPath_of_openFile) hstream

/-- A listed name that is valid, and the path of which is not too long, is served. -/
theorem Opened.serves (hd : Opened t l d) (h : t.WellFormed) (hu : t.Extends u)
    (hname : name ∈ d.names) (hslash : '\\' ∉ name.toList)
    (hsize : (Path.join d.root name).utf8ByteSize ≤ FileTree.maxPath) :
    (d.toCollection u).Serves name (contentAt t l name) := by
  obtain ⟨b, hb⟩ := hd.mem_names.1 hname
  obtain ⟨hread, hstream⟩ := hd.served h hu hb hsize
  rw [if_neg hslash] at hread hstream
  rw [contentAt_eq hb]
  exact ⟨hread, _, 0, hstream, Stream.holds_ofBytes b⟩

theorem Opened.listing_eq (hd : Opened t l d) (u : FileTree) :
    (d.toCollection u).names = .ok d.names := by simp [toCollection, guarded, hd.closed]

theorem Opened.steady (hd : Opened t l d) (h : t.WellFormed) :
    (d.toCollection t).Steady d.names (contentAt t l) where
  names_eq := hd.listing_eq t
  serves n hn hanswered := by
    obtain ⟨hslash, hsize⟩ := hd.path_of_answered h hn hanswered
    exact hd.serves h (.refl t) hn hslash hsize
  close_eq := rfl

end Directory

/-! ## Differences that were written -/

namespace DiffFile

open Difference (expected)
open Directory (Opened contentAt)

variable {t u : FileTree} {path : String} {records : List Record} {o : WriteOptions}

/-- A diff file is written if its path leads to a file or to a new one, and the records can be. -/
theorem write_eq_ok_iff : (∃ written, write t path records o = (.ok written, u)) ↔
    ∃ l stats, t.destination path = .ok l ∧ (Encoding.ofRecords o records).result = .ok stats ∧
      u = t.set l (.file (Encoding.ofRecords o records).bytes) := by
  constructor
  · rintro ⟨w, hw⟩
    obtain ⟨l, hl, hstats, -, -, hu⟩ := write_ok_iff.1 hw
    exact ⟨l, w.stats, hl, hstats, hu⟩
  · rintro ⟨l, stats, hl, hstats, hu⟩
    exact ⟨⟨stats, _, _⟩, write_ok_iff.2 ⟨l, hl, hstats, rfl, rfl, hu⟩⟩

/-- Two directories of a tree and the records of their difference, of which all that it takes could
be read. -/
structure Recorded (t : FileTree) (base derived : Directory) (lb ld : Location)
    (records : List Record) : Prop where
  base_opened : Opened t lb base
  derived_opened : Opened t ld derived
  base_valid : ∀ n ∈ base.names, '\\' ∉ n.toList
  derived_size_le : ∀ n ∈ base.names, n ∈ derived.names →
    (Path.join derived.root n).utf8ByteSize ≤ FileTree.maxPath
  records_eq : records = expected base.names derived.names (contentAt t lb) (contentAt t ld)

theorem compare_eq_ok {base derived : String} {opts : DiffOptions} {nb nd : Nat}
    (h : (compare t base derived opts).result = .ok (nb, nd, records)) :
    ∃ b d, (Directory.openAt t base).result = .ok b ∧
      (Directory.openAt t derived).result = .ok d ∧
      (Difference.generate opts (b.toCollection t) (d.toCollection t)).result = .ok records := by
  simp only [compare, Traced.result_bind, Traced.result_mapError] at h
  cases hb : (Directory.openAt t base).result with
  | error f => simp [hb, Except.mapError, Except.bind] at h
  | ok b =>
    cases hd : (Directory.openAt t derived).result with
    | error f => simp [hb, hd, Except.mapError, Except.bind] at h
    | ok d =>
      cases hg : (Difference.generate opts (b.toCollection t) (d.toCollection t)).result with
      | error e => simp [hb, hd, hg, Except.mapError, Except.bind] at h
      | ok found =>
        simp only [hb, hd, hg, Except.mapError, Except.bind, Traced.pure_result, Except.ok.injEq,
          Prod.mk.injEq] at h
        exact ⟨b, d, rfl, rfl, h.2.2 ▸ hg⟩

theorem recorded_of_generate {base derived : String} {b d : Directory} {opts : DiffOptions}
    (h : t.WellFormed) (hb : (Directory.openAt t base).result = .ok b)
    (hd : (Directory.openAt t derived).result = .ok d)
    (hg : (Difference.generate opts (b.toCollection t) (d.toCollection t)).result = .ok records) :
    b.root = base ∧ d.root = derived ∧ ∃ lb ld, Recorded t b d lb ld records := by
  obtain ⟨hbroot, lb, hb⟩ := Directory.opened_of_openAt h hb
  obtain ⟨hdroot, ld, hd⟩ := Directory.opened_of_openAt h hd
  obtain ⟨hbase, hderived, hrecords⟩ :=
    Difference.generate_steady (hb.steady h) (hd.steady h) opts hb.ascending.nodup hg
  refine ⟨hbroot, hdroot, lb, ld, hb, hd, fun n hn => ?_, fun n hn hn' => ?_, hrecords⟩
  · exact (hb.path_of_answered h hn (.inl ⟨_, hbase.read_eq n hn⟩)).1
  · exact (hd.path_of_answered h hn' (.inl ⟨_, (hderived n hn hn').1⟩)).2

/-- What is found and written if all goes well. -/
theorem ofDirectories_eq_ok {base derived out : String} {opts : DiffOptions} {stats : DiffStats}
    (h : (ofDirectories t base derived out opts o).result = .ok stats) :
    ∃ nb nd records l s, (compare t base derived opts).result = .ok (nb, nd, records) ∧
      t.destination out = .ok l ∧ (Encoding.ofRecords o records).result = .ok s ∧
      (ofDirectories t base derived out opts o).tree =
        t.set l (.file (Encoding.ofRecords o records).bytes) := by
  unfold ofDirectories at h ⊢
  cases hcompare : (compare t base derived opts).result with
  | error e => simp [hcompare] at h
  | ok found =>
    obtain ⟨nb, nd, records⟩ := found
    simp only [hcompare] at h ⊢
    cases hwrite : write t out records o with
    | mk result u =>
      simp only [hwrite] at h ⊢
      cases result with
      | error e => cases h
      | ok written =>
        obtain ⟨l, s, hl, hs, hu⟩ := write_eq_ok_iff.1 ⟨written, hwrite⟩
        exact ⟨nb, nd, records, l, s, rfl, hl, hs, hu⟩

theorem recorded_of_ok {base derived out : String} {opts : DiffOptions} {stats : DiffStats}
    (h : t.WellFormed) (hok : (ofDirectories t base derived out opts o).result = .ok stats) :
    ∃ b d lb ld records, b.root = base ∧ d.root = derived ∧ Recorded t b d lb ld records ∧
      ∃ l s, t.destination out = .ok l ∧ (Encoding.ofRecords o records).result = .ok s ∧
        (ofDirectories t base derived out opts o).tree =
          t.set l (.file (Encoding.ofRecords o records).bytes) := by
  obtain ⟨nb, nd, records, l, s, hcompare, hl, hs, htree⟩ := ofDirectories_eq_ok hok
  obtain ⟨b, d, hb, hd, hg⟩ := compare_eq_ok hcompare
  obtain ⟨hbroot, hdroot, lb, ld, hrecorded⟩ := recorded_of_generate h hb hd hg
  exact ⟨b, d, lb, ld, records, hbroot, hdroot, hrecorded, l, s, hl, hs, htree⟩

/-- The converse: a difference is written if there is one and its records and the path allow it. -/
theorem ofDirectories_of_compare {base derived out : String} {opts : DiffOptions} {nb nd : Nat}
    {s : WriteStats} {l : Location}
    (hcompare : (compare t base derived opts).result = .ok (nb, nd, records))
    (hl : t.destination out = .ok l) (hs : (Encoding.ofRecords o records).result = .ok s) :
    (∃ stats, (ofDirectories t base derived out opts o).result = .ok stats) ∧
      (ofDirectories t base derived out opts o).tree =
        t.set l (.file (Encoding.ofRecords o records).bytes) := by
  obtain ⟨written, hwrite⟩ := write_eq_ok_iff.2 ⟨l, s, hl, hs, rfl⟩
  simp only [ofDirectories, hcompare, hwrite]
  exact ⟨⟨_, rfl⟩, trivial⟩

/-- With a built-in codec, whatever records a file can hold are written. -/
theorem ofRecords_of_builtIn {c : Compression} (hc : c.BuiltIn) (checksum : Bool)
    (h : Writable records) :
    ∃ s, (Encoding.ofRecords ⟨c.backend?, checksum⟩ records).result = .ok s := by
  obtain ⟨s, _, hs, -, -⟩ :=
    Encoding.ofRecords_written (o := ⟨c.backend?, checksum⟩) hc.lossless h
  exact ⟨s, hs⟩

/-! ## Reading them back -/

namespace Recorded

variable {base derived : Directory} {lb ld : Location}

theorem size_lt (h : Recorded t base derived lb ld records) (hwf : t.WellFormed) :
    ∀ r ∈ records, r.size < 2 ^ 64 := by
  intro r hr
  rw [h.records_eq] at hr
  rcases size_of_expected hr with hzero | ⟨n, hn, hsize⟩
  · rw [hzero]
    decide
  · obtain ⟨b, hb⟩ := h.base_opened.mem_names.1 hn
    rw [hsize, Directory.contentAt_eq hb]
    exact hwf.file_size_lt hb

theorem length_lt (h : Recorded t base derived lb ld records) (hwf : t.WellFormed) :
    records.length < 2 ^ 64 := by
  have hlen := length_expected_le base.names derived.names (contentAt t lb) (contentAt t ld)
  have hb := h.base_opened.length_le
  have hd := h.derived_opened.length_le
  have hcount := hwf.count_lt
  rw [← h.records_eq] at hlen
  omega

theorem nodup (h : Recorded t base derived lb ld records) : (records.map Record.name).Nodup := by
  rw [h.records_eq]
  exact Difference.nodup_expected h.base_opened.ascending.nodup

/-- Wherever the bytes of the file are read, they are read as the records. -/
theorem read_eq (h : Recorded t base derived lb ld records) (hwf : t.WellFormed) {c : Compression}
    (hc : c.BuiltIn) {checksum verify : Bool} {s : WriteStats}
    (hok : (Encoding.ofRecords ⟨c.backend?, checksum⟩ records).result = .ok s)
    (hread : u.readFile path = .ok (Encoding.ofRecords ⟨c.backend?, checksum⟩ records).bytes) :
    read u path verify = .ok records := by
  have hwritable : Writable records :=
    ⟨Encoding.name_le_of_ofList hok, h.size_lt hwf, h.length_lt hwf⟩
  obtain ⟨_, body, -, hbytes, hbody⟩ :=
    Encoding.ofRecords_written (o := ⟨c.backend?, checksum⟩) hc.lossless hwritable
  have hback := Encoding.readRecords_of_nodup (provides_builtIn hc verify) hwritable.length_lt hbody
    h.nodup
  rw [← hbytes] at hback
  rw [read, FileTree.openFile_of_readFile hread]
  simp only [hback, Except.mapError]

end Recorded
end DiffFile
end CollectionDelta
