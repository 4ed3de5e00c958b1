import CollectionDelta.Program
import CollectionDelta.Proofs.CommandLine.Paths
import CollectionDelta.Proofs.DiffFile.Confined
import CollectionDelta.Proofs.FileTree.Fresh

/-!
What the program leaves alone unless it is forced.

* `FileTree.Free`: the output paths that may be written without force.
* `FileTree.Surfaces`: a path that leads nowhere, but goes up out of a directory that is made for it
  and on to another one that was there; nothing else is free and is not empty when it has been made.
* `DiffFile.extends_ofDirectories`, `DiffFile.extends_restore`: writing to a free path only adds.
* `Program.perform_unforced`: a command that is not forced does what it would if it were, or is
  refused.
* `Program.kept_without_force`: whatever the command line, all that was there is still there and as
  it was, unless a directory is restored to a path that surfaces.
-/

namespace CollectionDelta

open CommandLine FileTree

/-! ## Free paths -/

namespace FileTree

variable {t u v : FileTree} {out : String} {l lo : Location}

/-- The path leads nowhere, or to an empty directory. -/
def Free (t : FileTree) (out : String) : Prop :=
  t.pathExists out = false ∨ t.isEmptyDirectory out = true

instance (t : FileTree) (out : String) : Decidable (t.Free out) :=
  inferInstanceAs (Decidable (_ ∨ _))

/-- The path leads nowhere until directories are made for it, and then to one that is not empty. -/
structure Surfaces (t : FileTree) (out : String) : Prop where
  up : ".." ∈ Path.essential out
  missing : t.pathExists out = false
  made : (t.makeDirectories out).1 = .ok ()
  filled : (t.makeDirectories out).2.isEmptyDirectory out = false

/-- A free path that can be made leads to an empty directory then. -/
theorem Free.empty_of_made (h : t.Free out) (ht : t.WellFormed) (hne : out ≠ "")
    (hout : ¬ t.Surfaces out) (hv : t.makeDirectories out = (.ok (), v)) :
    ∃ lo, v.Empty out lo := by
  rw [← isEmptyDirectory_eq_true_iff]
  rcases h with hmissing | hempty
  · by_cases hup : ".." ∈ Path.essential out
    · by_contra hfilled
      rw [Bool.not_eq_true] at hfilled
      exact hout ⟨hup, hmissing, by rw [hv], by rwa [hv]⟩
    · exact isEmptyDirectory_of_made ht hne hup hmissing hv
  · obtain ⟨lo, hlo⟩ := isEmptyDirectory_eq_true_iff.1 hempty
    rw [makeDirectories_existing hlo.locate] at hv
    cases hv
    exact hempty

/-- Where a file is to be written by a free path, there is nothing. -/
theorem Free.destination_missing (h : t.Free out) (ht : t.WellFormed)
    (hl : t.destination out = .ok l) : t.node? l = none := by
  obtain ⟨hcheck, hslash, hwalk, hdir⟩ := destination_eq_ok hl
  refine Option.eq_none_iff_forall_ne_some.2 fun n hn => ?_
  rcases h with hmissing | hempty
  · cases n with
    | directory => exact hdir hn
    | link target => exact not_link_of_walk ht (ht.directory_startOf out) hwalk target hn
    | file b =>
      -- the path leads to the file, and so there is something
      obtain ⟨k, hk⟩ := leads_of_walk_retains (.refl t) (fun _ => ⟨b, hn⟩) hwalk
      have hlocate : t.locate out = .ok l :=
        locate_eq_ok_iff.2 ⟨hcheck, ⟨k, hk⟩, fun hends => Bool.noConfusion (hslash.symm.trans hends)⟩
      rw [pathExists_of_locate hlocate hn] at hmissing
      cases hmissing
  · obtain ⟨lo, hlo⟩ := isEmptyDirectory_eq_true_iff.1 hempty
    obtain ⟨-, ⟨k, hk⟩, hlodir⟩ := locateDirectory_eq_ok_iff.1 hlo.locate
    rw [hk.walk] at hwalk
    cases hwalk
    exact hdir hlodir

/-- What changes below an empty directory is new. -/
theorem ChangedBelow.extends (h : ChangedBelow lo v u) (hempty : v.Empty out lo) :
    v.Extends u where
  node?_eq {l n} hn := by
    by_contra hne
    obtain ⟨way, hway, rfl⟩ := h.within fun heq => hne (heq.trans hn)
    rw [hempty.below hway] at hn
    cases hn
  current_eq := h.current_eq

theorem Empty.settled (h : t.Empty out l) : t.Settled out l :=
  ⟨fun _ => (locateDirectory_eq_ok_iff.1 h.locate).1, leadsTo_of_locateDirectory h.locate,
    h.linkFree⟩

end FileTree

/-! ## Diff files and restored directories -/

namespace DiffFile

variable {t : FileTree} {out : String}

theorem extends_write (ht : t.WellFormed) (hout : t.Free out) (records : List Record)
    (o : WriteOptions) : t.Extends (write t out records o).2 := by
  unfold write
  cases hl : t.destination out with
  | error f => exact .refl t
  | ok l =>
    have hnone := hout.destination_missing ht hl
    have hne : l ≠ [] := by
      rintro rfl
      rw [node?_root] at hnone
      cases hnone
    exact .set hne hnone _

/-- The difference of two directories is written where there was nothing, if it is. -/
theorem extends_ofDirectories (ht : t.WellFormed) (hout : t.Free out) (base derived : String)
    (o : DiffOptions) (w : WriteOptions) :
    t.Extends (ofDirectories t base derived out o w).tree := by
  unfold ofDirectories
  dsimp only
  split
  · exact .refl t
  · exact extends_write ht hout _ w

/-- A directory is restored where there was nothing, however far this comes. -/
theorem extends_restore (ht : t.WellFormed) (hout : t.Free out) (hne : out ≠ "")
    (hsurfaces : ¬ t.Surfaces out) (derived diff : String) :
    t.Extends (restore t derived diff out).tree := by
  by_cases hrefused : (∃ e, read t diff true = .error e) ∨
      ∃ f, (Directory.openAt t derived).result = .error f
  · rw [tree_restore_of_refused hrefused]
    exact .refl t
  · rw [not_or] at hrefused
    obtain ⟨records, hread⟩ := exists_ok_of_not_error hrefused.1
    obtain ⟨d, hopen⟩ := exists_ok_of_not_error hrefused.2
    cases hv : t.makeDirectories out with
    | mk result v =>
      have hmade : t.Extends v := .of_makeDirectories hv
      cases result with
      | error f =>
        simp only [restore, hread, hopen, hv]
        exact hmade
      | ok _ =>
        obtain ⟨lo, hempty⟩ := hout.empty_of_made ht hne hsurfaces hv
        have hchanged := changedBelow_restore hempty.settled (fun s => d.toCollection s) records
        simp only [restore, hread, hopen, hv]
        exact hmade.trans (hchanged.extends hempty)

end DiffFile

/-! ## The program -/

/-- Where a command is to write, if it writes at all and was told where. -/
def CommandLine.Request.output? : Request → Option String
  | .diff r => r.output
  | .restore r => r.output
  | .list _ => none
  | .config => none

def CommandLine.Invocation.forced (i : Invocation) : Invocation :=
  { i with manner := { i.manner with force := true } }

namespace Program

variable {t : FileTree} {m : Manner} {out : String}

theorem mayWrite_unforced (hforce : m.force = false) : mayWrite t m out = true ↔ t.Free out := by
  simp [mayWrite, hforce, Free]

theorem tree_ofRun {α : Type} (m : Manner) (failure : String) (report : α → List String)
    (run : TreeRun α) : (ofRun m failure report run).tree = run.tree := by
  unfold ofRun
  split <;> rfl

theorem tree_halted (t : FileTree) (h : Halt) : (halted t h).tree = t := by
  unfold halted
  split <;> rfl

theorem extends_diff (ht : t.WellFormed) (hforce : m.force = false) (r : DiffRequest) :
    t.Extends (diff t m r).tree := by
  unfold diff
  split
  · exact .refl t
  · split
    · next out _ hmay =>
      rw [tree_ofRun]
      exact DiffFile.extends_ofDirectories ht ((mayWrite_unforced hforce).1 hmay) ..
    · exact .refl t

theorem extends_restore (ht : t.WellFormed) (hforce : m.force = false) {r : RestoreRequest}
    (hout : ∀ out, r.output = some out → out ≠ "" ∧ ¬ t.Surfaces out) :
    t.Extends (restore t m r).tree := by
  unfold restore
  split
  · exact .refl t
  · next out hr =>
    obtain ⟨hne, hsurfaces⟩ := hout out hr
    split
    · next hmay =>
      rw [tree_ofRun]
      exact DiffFile.extends_restore ht ((mayWrite_unforced hforce).1 hmay) hne hsurfaces ..
    · exact .refl t

/-- Force is all that decides about an output that is not free; apart from that it changes nothing. -/
theorem perform_unforced {i : Invocation} (hforce : i.manner.force = false)
    (hout : i.request.output? = some out) : perform t i =
      if t.Free out then perform t i.forced else refused t (needsForce out) := by
  obtain ⟨m, request⟩ := i
  have hmay : mayWrite t m out = true ↔ t.Free out := mayWrite_unforced hforce
  have hforced : mayWrite t { m with force := true } out = true := rfl
  cases request with
  | diff r =>
    have hout : r.output = some out := hout
    by_cases hfree : t.Free out
    · simp only [perform, Invocation.forced, diff, hout, hforced, hmay.2 hfree, if_pos hfree]
      rfl
    · simp only [perform, diff, hout, mt hmay.1 hfree, if_neg hfree]
      rfl
  | restore r =>
    have hout : r.output = some out := hout
    by_cases hfree : t.Free out
    · simp only [perform, Invocation.forced, restore, hout, hforced, hmay.2 hfree, if_pos hfree]
      rfl
    · simp only [perform, restore, hout, mt hmay.1 hfree, if_neg hfree]
      rfl
  | list r => cases hout
  | config => cases hout

theorem extends_perform (ht : t.WellFormed) {i : Invocation} (hforce : i.manner.force = false)
    (hpaths : "" ∉ i.request.paths)
    (hout : ∀ r out, i.request = .restore r → r.output = some out → ¬ t.Surfaces out) :
    t.Extends (perform t i).tree := by
  obtain ⟨m, request⟩ := i
  cases request with
  | diff r => exact extends_diff ht hforce r
  | restore r =>
    refine extends_restore ht hforce fun out hr => ⟨?_, hout r out rfl hr⟩
    rintro rfl
    simp [Request.paths, hr] at hpaths
  | list r => exact .refl t
  | config => exact .refl t

/-- Without force, whatever else is asked for and however it ends: every file, directory and link
that was there is there afterwards, and as it was. The paths may be spelled in any way, but a
directory is not to be restored to one that surfaces. What is written to a free path is just what
would be with force, and nothing else is written to. -/
theorem kept_without_force (ht : t.WellFormed) {args : List String}
    (hforce : ∀ i, parse args = .ok i → i.manner.force = false)
    (hout : ∀ m r out, parse args = .ok ⟨m, .restore r⟩ → r.output = some out →
      ¬ t.Surfaces out) :
    t.Extends (run t args).tree ∧
      ∀ i out, parse args = .ok i → i.request.output? = some out → run t args =
        if t.Free out then perform t i.forced else refused t (needsForce out) := by
  have hrun : ∀ i, parse args = .ok i → run t args = perform t i := fun i hi => by rw [run, hi]
  constructor
  · cases hi : parse args with
    | error h =>
      rw [run, hi, tree_halted]
      exact .refl t
    | ok i =>
      rw [hrun i hi]
      exact extends_perform ht (hforce i hi) (parse_paths hi) fun r out hrequest =>
        hout i.manner r out (by rw [hi, ← hrequest])
  · intro i out hi houtput
    rw [hrun i hi]
    exact perform_unforced (hforce i hi) houtput

/-- A directory is restored to a path that goes up out of a directory made for it, but on to one that
is made as well. -/
theorem kept_without_force_up :
    let t : FileTree := { entries := [([.text "derived"], .directory),
      ([.text "derived", .text "f"], .file [0x32]), ([.text "out"], .directory),
      ([.text "out", .text "f"], .file [0x31]),
      ([.text "d"], .file [0x52, 0x53, 0x44, 0x46, 0x01, 0x01, 0x00])] }
    let args := ["restore", "--derived", "derived", "--diff", "d", "new/../other"]
    let i : Invocation := ⟨{}, .restore ⟨"derived", "d", some "new/../other"⟩⟩
    parse args = .ok i ∧ (run t args).code = succeeded ∧
      (run t args).tree.node? [.text "other", .text "f"] = some (.file [0x32]) ∧
      t.Extends (run t args).tree ∧ run t args = perform t i.forced := by
  intro t args i
  have hparse : parse args = .ok i := by decide +kernel
  obtain ⟨hkept, hsame⟩ : t.Extends (run t args).tree ∧ _ := by
    refine kept_without_force (by decide +kernel) (fun i hi => ?_) fun m r out hi hr hsurfaces => ?_
    · rw [hparse] at hi
      cases hi
      rfl
    · rw [hparse] at hi
      have hrequest : i.request = .restore r := congrArg Invocation.request (Except.ok.inj hi)
      cases hrequest
      cases hr
      exact absurd hsurfaces.filled (by decide +kernel)
  have hfree : t.Free "new/../other" := by decide +kernel
  have hforced := hsame i "new/../other" hparse rfl
  rw [if_pos hfree] at hforced
  exact ⟨hparse, by decide +kernel, by decide +kernel, hkept, hforced⟩

/-- A path that surfaces leads to a directory that was there, and the files in it are overwritten
without force. -/
theorem overwritten_without_force :
    let t : FileTree := { entries := [([.text "derived"], .directory),
      ([.text "derived", .text "f"], .file [0x32]), ([.text "out"], .directory),
      ([.text "out", .text "f"], .file [0x31]),
      ([.text "d"], .file [0x52, 0x53, 0x44, 0x46, 0x01, 0x01, 0x00])] }
    let args := ["restore", "--derived", "derived", "--diff", "d", "new/../out"]
    t.WellFormed ∧
      parse args = .ok ⟨{}, .restore ⟨"derived", "d", some "new/../out"⟩⟩ ∧
      t.node? [.text "out", .text "f"] = some (.file [0x31]) ∧
      (run t args).code = succeeded ∧
      (run t args).tree.node? [.text "out", .text "f"] = some (.file [0x32]) := by
  decide +kernel

end Program
end CollectionDelta
