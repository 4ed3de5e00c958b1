import CollectionDelta.DiffFile
import CollectionDelta.Proofs.Buffered
import CollectionDelta.Proofs.FileTree.Creation
import CollectionDelta.Proofs.Sink

/-!
A diff file and the digest of it.

* `Hashing.accepted`: what has been seen is what has been accepted, after any writes.
* `DiffFile.writeDigested_eq_ok`: a success has written all, and digested it.
* `DiffFile.write_eq`: the outcome of writing a diff file.
* `DiffFile.digest_of_file`: the size and the digest that are reported are those of the file.
-/

namespace CollectionDelta

variable {σ : Type} [Writer σ] {taken : σ → Bytes} {states : σ → Prop}

/-! ## What is digested -/

namespace Hashing

theorem keeps (hk : Writer.Keeps taken) : Writer.Keeps fun s : Hashing σ => taken s.inner where
  ok := by
    intro s t b n hw
    have hw : Hashing.write s b = (.ok n, t) := hw
    unfold Hashing.write at hw
    split at hw
    · next m u hm =>
      cases hw
      exact hk.ok hm
    · cases hw
  error := by
    intro s t b f hw
    have hw : Hashing.write s b = (.error f, t) := hw
    unfold Hashing.write at hw
    split at hw
    · cases hw
    · next f' u hf =>
      cases hw
      exact hk.error hf

theorem whole (h : Writer.Whole states) :
    Writer.Whole fun s : Hashing σ => states s.inner := by
  intro s b hs
  obtain ⟨t, hw, ht⟩ := h s.inner b hs
  refine ⟨⟨t, (b.take b.length).reverseAux s.seenRev⟩, ?_, ht⟩
  show Hashing.write s b = _
  rw [Hashing.write, hw]

/-- Whatever comes of a write, the bytes of it that are seen are those that are accepted. -/
theorem seen_write (hk : Writer.Keeps taken) {h u : Hashing σ} {b : Bytes} {r : Except Fault Nat}
    (hw : Writer.write h b = (r, u)) :
    ∃ p, taken u.inner = taken h.inner ++ p ∧ u.seen = h.seen ++ p := by
  have hw : Hashing.write h b = (r, u) := hw
  unfold Hashing.write at hw
  split at hw
  · next n t hn =>
    cases hw
    refine ⟨b.take n, (hk.ok hn).2, ?_⟩
    rw [seen, List.reverseAux_eq, List.reverse_append, List.reverse_reverse, seen]
  · next f t hf =>
    cases hw
    exact ⟨[], (hk.error hf).trans (List.append_nil _).symm, (List.append_nil _).symm⟩

/-- After any writes, what has been seen is what has been accepted since, in order. -/
theorem accepted (hk : Writer.Keeps taken) {s : σ} {h : Hashing σ}
    (hreach : Writer.Reaches ⟨s, []⟩ h) : taken h.inner = taken s ++ h.seen := by
  induction hreach with
  | start => exact (List.append_nil _).symm
  | write _ hw ih =>
    obtain ⟨p, htaken, hseen⟩ := seen_write hk hw
    rw [htaken, ih, hseen, List.append_assoc]

/-- What has been seen of an encoding, if it is known what has been accepted. -/
theorem seen_of_write {α : Type} (hk : Writer.Keeps taken) {s : σ} {h : Hashing σ} {p : Bytes}
    {e : Encoding α} {r : Except FormatError α} (hwrite : e.write ⟨s, []⟩ = (r, h))
    (htaken : taken h.inner = taken s ++ p) : h.seen = p := by
  have hreach := e.reaches_write (⟨s, []⟩ : Hashing σ)
  rw [hwrite] at hreach
  exact List.append_cancel_left ((accepted hk hreach).symm.trans htaken)

end Hashing

/-! ## Diff files -/

namespace DiffFile

variable {α : Type}

/-- A success has written all of an encoding that succeeds, and digested it. -/
theorem writeDigested_eq_ok (hk : Writer.Keeps taken) {file file' : σ} {e : Encoding α} {a : α}
    {digest : Bytes} (h : writeDigested file e = (.ok (a, digest), file')) :
    e.result = .ok a ∧ taken file' = taken file ++ e.bytes ∧ digest = Sha256.digest e.bytes := by
  have hbuffered : Writer.Keeps fun s : Buffered bufferSize σ => s.takenWith taken :=
    Buffered.keeps hk
  let start : Hashing (Buffered bufferSize σ) := ⟨⟨file, []⟩, []⟩
  have hstart : start.inner.takenWith taken = taken file := List.append_nil _
  obtain ⟨p, x, hpx, htaken, hend⟩ := e.write_wrote (Hashing.keeps hbuffered) start
  rw [hstart] at htaken
  rw [writeDigested] at h
  cases hwrite : e.write start with
  | mk r w =>
    rw [hwrite] at h htaken hend
    cases r with
    | error err => cases h
    | ok a' =>
      obtain ⟨rfl, hresult⟩ | ⟨-, f, hf⟩ := hend
      · rw [List.append_nil] at hpx
        subst hpx
        have hseen := Hashing.seen_of_write hbuffered hwrite (hstart ▸ htaken)
        cases hflush : w.inner.flush with
        | mk r u =>
          simp only [hflush] at h
          cases r with
          | error f => cases h
          | ok _ =>
            cases h
            exact ⟨hresult.symm, (Buffered.taken_flush hk hflush).trans htaken, by rw [hseen]⟩
      · cases hf

/-- A file that accepts everything holds the whole encoding, whatever the outcome of this. -/
theorem writeDigested_unlimited (e : Encoding α) : ∃ file : Sink,
    writeDigested Sink.unlimited e =
      ((e.result.map fun a => (a, Sha256.digest e.bytes)).mapError .format, file) ∧
      file.written = e.bytes := by
  let start : Hashing (Buffered bufferSize Sink) := ⟨⟨Sink.unlimited, []⟩, []⟩
  have hopen : start.inner.inner.Open := ⟨rfl, rfl⟩
  have hbuffered : Writer.Keeps fun s : Buffered bufferSize Sink => s.takenWith Sink.written :=
    Buffered.keeps Sink.keeps
  obtain ⟨w, hwrite, hwritten, hw⟩ :=
    e.write_whole (Hashing.keeps hbuffered) (Hashing.whole (Buffered.whole Sink.whole)) hopen
  have hseen := Hashing.seen_of_write hbuffered hwrite hwritten
  obtain ⟨u, hflush, -⟩ := Buffered.flush_whole Sink.whole hw
  refine ⟨u.inner, ?_, (Buffered.taken_flush Sink.keeps hflush).trans hwritten⟩
  rw [writeDigested, hwrite]
  cases e.result with
  | error err => simp only [hflush, Except.map, Except.mapError]
  | ok a => simp only [hflush, hseen, Except.map, Except.mapError]

theorem write_eq (t : FileTree) (path : String) (records : List Record) (o : WriteOptions) :
    write t path records o =
      match t.destination path with
      | .error f => (.error (.io f), t)
      | .ok l =>
        let e := Encoding.ofRecords o records
        ((e.result.map fun s => ⟨s, e.bytes.length, Sha256.digest e.bytes⟩).mapError .format,
          t.set l (.file e.bytes)) := by
  rw [write]
  cases t.destination path with
  | error f => rfl
  | ok l =>
    obtain ⟨file, hwrite, hfile⟩ := writeDigested_unlimited (Encoding.ofRecords o records)
    simp only [hwrite, hfile]
    cases (Encoding.ofRecords o records).result <;> rfl

/-- A diff file is written if its path leads to a file or to a new one, and the records can be. -/
theorem write_ok_iff {t u : FileTree} {path : String} {records : List Record} {o : WriteOptions}
    {w : Written} : write t path records o = (.ok w, u) ↔
      ∃ l, t.destination path = .ok l ∧ (Encoding.ofRecords o records).result = .ok w.stats ∧
        w.size = (Encoding.ofRecords o records).bytes.length ∧
        w.digest = Sha256.digest (Encoding.ofRecords o records).bytes ∧
        u = t.set l (.file (Encoding.ofRecords o records).bytes) := by
  rw [write_eq]
  dsimp only
  generalize Encoding.ofRecords o records = e
  cases t.destination path with
  | error f => simp
  | ok l =>
    cases e.result with
    | error err => simp [Except.map, Except.mapError]
    | ok stats =>
      obtain ⟨wstats, size, digest⟩ := w
      simp only [Except.map, Except.mapError, Prod.mk.injEq, Except.ok.injEq, Written.mk.injEq]
      constructor
      · rintro ⟨⟨rfl, rfl, rfl⟩, rfl⟩
        exact ⟨l, rfl, rfl, rfl, rfl, rfl⟩
      · rintro ⟨_, rfl, rfl, rfl, rfl, rfl⟩
        exact ⟨⟨rfl, rfl, rfl⟩, rfl⟩

/-- A diff file that is written holds what a plain writer takes of the records, whatever its path
held before, and its size and digest are reported. The same is so behind a file that accepts parts,
is interrupted or fails; and after any writes, whatever came of them, what has been digested is what
has been accepted, in order, of the pieces that were to be written a beginning. -/
theorem digest_of_file {t : FileTree} (ht : t.WellFormed) (hk : Writer.Keeps taken) (path : String)
    (records : List Record) (o : WriteOptions) :
    (∀ w u, write t path records o = (.ok w, u) → ∃ plain : Sink,
      (Encoding.ofRecords o records).write Sink.unlimited = (.ok w.stats, plain) ∧
      u.readFile path = .ok plain.written ∧ w.size = plain.written.length ∧
      w.digest = Sha256.digest plain.written) ∧
    (∀ (file file' : σ) stats digest,
      writeDigested file (Encoding.ofRecords o records) = (.ok (stats, digest), file') →
      (Encoding.ofRecords o records).result = .ok stats ∧
      taken file' = taken file ++ (Encoding.ofRecords o records).bytes ∧
      digest = Sha256.digest (Encoding.ofRecords o records).bytes) ∧
    (∀ (s : σ) (h : Hashing σ), Writer.Reaches ⟨s, []⟩ h → taken h.inner = taken s ++ h.seen) ∧
    ∀ (s : σ) pieces, let (r, h) := Writer.writeEach (⟨s, []⟩ : Hashing σ) pieces
      taken h.inner = taken s ++ h.seen ∧ h.seen <+: pieces.flatten ∧
        (r = .ok () → h.seen = pieces.flatten) := by
  refine ⟨fun w u hw => ?_, fun file file' stats digest => writeDigested_eq_ok hk,
    fun s h hreach => Hashing.accepted hk hreach, fun s pieces => ?_⟩
  · obtain ⟨l, hl, hstats, hsize, hdigest, rfl⟩ := write_ok_iff.1 hw
    obtain ⟨plain, hplain, hwritten⟩ := Encoding.write_unlimited (Encoding.ofRecords o records)
    refine ⟨plain, by rw [hplain, hstats], ?_, by rw [hwritten, hsize], by rw [hwritten, hdigest]⟩
    rw [hwritten]
    exact FileTree.readFile_set_destination ht hl _
  · have hreach : Writer.Reaches (⟨s, []⟩ : Hashing σ) (Writer.writeEach ⟨s, []⟩ pieces).2 :=
      Writer.Reaches.start.writeEach pieces
    have hseen := Hashing.accepted hk hreach
    have hwrote := Writer.writeEach_wrote (Hashing.keeps hk) ⟨s, []⟩ pieces
    generalize Writer.writeEach (⟨s, []⟩ : Hashing σ) pieces = r at hseen hwrote
    generalize pieces.flatten = b at hwrote
    obtain ⟨r, h⟩ := r
    refine ⟨hseen, ?_⟩
    cases hwrote with
    | all htaken =>
      have hall := List.append_cancel_left (hseen.symm.trans htaken)
      exact ⟨hall ▸ List.prefix_rfl, fun _ => hall⟩
    | @part p x _ f hx htaken =>
      have hpart := List.append_cancel_left (hseen.symm.trans htaken)
      exact ⟨hpart ▸ List.prefix_append h.seen x, nofun⟩

/-- A file that was there before is written anew. Another writer accepts one byte, is interrupted,
accepts one more and is full then, so that only two of five bytes are digested. -/
theorem digest_of_file_cut :
    let t : FileTree := { entries := [([.text "d"], .file [1, 2, 3])] }
    let records : List Record := [.added "a", .removed "b" [7]]
    let bytes : Bytes :=
      [0x52, 0x53, 0x44, 0x46, 1, 1, 2, 0, 1, 0x61, 1, 1, 0x62, 0, 1, 1, 7, 0, 8, 0, 8]
    let sink : Sink :=
      { script := [.accept 1, .fail ⟨.interrupted, "again"⟩, .accept 1], room := some 0 }
    (∃ w u, write t "d" records {} = (.ok w, u) ∧ u.readFile "d" = .ok bytes ∧ w.size = 21 ∧
      w.digest = Sha256.digest bytes) ∧
      let (r, h) := Writer.writeEach (⟨sink, []⟩ : Hashing Sink) [[1], [2, 3], [4, 5]]
      r = .error .full ∧ h.inner.written = [1, 2] ∧ h.seen = [1, 2] := by
  intro t records bytes sink
  have ht : t.WellFormed := by decide +kernel
  obtain ⟨hfile, -, -, hpieces⟩ := digest_of_file ht Sink.keeps "d" records {}
  have hrun : Writer.writeEach (⟨sink, []⟩ : Hashing Sink) [[1], [2, 3], [4, 5]] =
      (.error .full, ⟨⟨[], some 0, [2, 1]⟩, [2, 1]⟩) := by cbv
  have hcut := hpieces sink [[1], [2, 3], [4, 5]]
  rw [hrun] at hcut ⊢
  refine ⟨?_, rfl, rfl, hcut.1.symm⟩
  have hl : t.destination "d" = .ok [.text "d"] := by decide +kernel
  have hbytes : (Encoding.ofRecords {} records).bytes = bytes := by decide +kernel
  have hw : write t "d" records {} =
      (.ok ⟨⟨2, 1, 1, 0⟩, 21, Sha256.digest bytes⟩, t.set [.text "d"] (.file bytes)) :=
    write_ok_iff.2 ⟨_, hl, by decide +kernel, by rw [hbytes]; rfl, by rw [hbytes], by rw [hbytes]⟩
  obtain ⟨plain, hplain, hread, hsize, hdigest⟩ := hfile _ _ hw
  obtain ⟨plain', hplain', hwritten⟩ := Encoding.write_unlimited (Encoding.ofRecords {} records)
  cases (Prod.ext_iff.1 (hplain.symm.trans hplain')).2
  rw [hwritten, hbytes] at hread hdigest
  exact ⟨_, _, hw, hread, rfl, hdigest⟩

end DiffFile
end CollectionDelta
