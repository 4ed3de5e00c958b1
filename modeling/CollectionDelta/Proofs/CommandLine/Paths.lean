import CollectionDelta.CommandLine.Invocation
import Mathlib.Data.List.ReduceOption

/-!
The paths that a command line gives.

* `Values.paths`, `Request.paths`: the paths among the settings, and those that a command works on.
* `Scan.Filled`: an attempt to read more, after which no path is empty; `Filled.bind` puts such
  attempts one after another, and each kind of argument is one of them.
* `parse_paths`: a command is never given an empty path.
-/

namespace CollectionDelta.CommandLine

def Values.paths (v : Values) : List String :=
  [v.base, v.derived, v.diff, v.output, v.outputPlace, v.input].reduceOption

theorem Values.mem_paths {v : Values} {p : String} : p ∈ v.paths ↔
    some p ∈ [v.base, v.derived, v.diff, v.output, v.outputPlace, v.input] :=
  List.reduceOption_mem_iff

def Request.paths : Request → List String
  | .diff r => r.base :: r.derived :: r.output.toList
  | .restore r => r.derived :: r.diff :: r.output.toList
  | .list r => [r.input]
  | .config => []

/-! ## Settings -/

theorem Values.readPath_eq_ok {s : Setting} {text p : String} (h : readPath s text = .ok p) :
    p ≠ "" := by
  unfold readPath at h
  split at h
  · cases h
  · next hne =>
    cases h
    exact hne

theorem map_eq_ok {α β : Type} {r : Except Halt α} {f : α → β} {b : β} (h : r.map f = .ok b) :
    ∃ a, r = .ok a ∧ f a = b := by
  cases r with
  | error e => cases h
  | ok a => exact ⟨a, rfl, Except.ok.inj h⟩

theorem bind_eq_ok {α β : Type} {r : Except Halt α} {f : α → Except Halt β} {b : β}
    (h : r >>= f = .ok b) : ∃ a, r = .ok a ∧ f a = .ok b := by
  cases r with
  | error e => cases h
  | ok a => exact ⟨a, rfl, h⟩

/-- A setting is not given an empty path. -/
theorem Values.paths_set {v w : Values} {s : Setting} {text : String} (hv : "" ∉ v.paths)
    (h : v.set s text = .ok w) : "" ∉ w.paths := by
  rw [mem_paths] at hv ⊢
  simp only [List.mem_cons, List.not_mem_nil, or_false, not_or] at hv ⊢
  unfold set at h
  split at h
  · cases h
  · cases s
    all_goals
      obtain ⟨p, hp, rfl⟩ := map_eq_ok h
    case compression => exact hv
    case level => exact hv
    case chunkSize => exact hv
    all_goals
      have hne : some "" ≠ some p := fun heq => readPath_eq_ok hp (Option.some.inj heq).symm
      simp only [hv, hne, not_false_eq_true, and_self]

/-! ## Arguments -/

namespace Scan

variable {s : Scan}

/-- If something comes of it, no path there is empty. -/
def Filled (r : Except Halt Scan) : Prop := ∀ s, r = .ok s → "" ∉ s.values.paths

theorem filled_ok (h : "" ∉ s.values.paths) : Filled (.ok s) := by
  rintro _ ⟨⟩
  exact h

theorem filled_error (e : Halt) : Filled (.error e) := by
  intro s hs
  cases hs

theorem Filled.bind {r : Except Halt Scan} {f : Scan → Except Halt Scan} (hr : Filled r)
    (hf : ∀ s, "" ∉ s.values.paths → Filled (f s)) : Filled (r >>= f) := by
  cases r with
  | error e => exact filled_error e
  | ok s => exact hf s (hr s rfl)

theorem filled_settle (h : "" ∉ s.values.paths) : Filled s.settle := by
  unfold settle
  split
  · exact filled_ok h
  · exact filled_error _
  · intro u hu
    obtain ⟨v, hv, rfl⟩ := map_eq_ok hu
    exact Values.paths_set h hv

theorem filled_raise (topic : Option Command) (f : Flag) (h : "" ∉ s.values.paths) :
    Filled (s.raise topic f) := by
  refine (filled_settle h).bind fun s h => ?_
  split
  · exact filled_error _
  · exact filled_error _
  · exact filled_ok h
  · split
    · exact filled_error _
    · exact filled_ok h

theorem filled_give (setting : Setting) (text : String) (h : "" ∉ s.values.paths) :
    Filled (s.give setting text) := by
  refine (filled_settle h).bind fun s h => ?_
  cases hv : s.values.set setting text with
  | error e => exact filled_error e
  | ok v => exact filled_ok (Values.paths_set h hv)

theorem filled_await (setting : Setting) (h : "" ∉ s.values.paths) : Filled (s.await setting) :=
  (filled_settle h).bind fun _ h => filled_ok h

variable (topic : Option Command) (g : Grammar)

theorem filled_long (name : String) (value? : Option String) (h : "" ∉ s.values.paths) :
    Filled (s.long topic g name value?) := by
  unfold long
  split
  · exact filled_error _
  · exact filled_error _
  · exact filled_raise topic _ h
  · exact filled_give _ _ h
  · exact filled_await _ h

theorem filled_cluster (cs : List Char) (h : "" ∉ s.values.paths) :
    Filled (s.cluster topic g cs) := by
  induction cs generalizing s with
  | nil => exact filled_ok h
  | cons c cs ih =>
    unfold cluster
    split
    · exact filled_error _
    · exact (filled_raise topic _ h).bind fun _ h => ih h
    · split
      · exact filled_await _ h
      · exact filled_give _ _ h
      · exact filled_give _ _ h

theorem filled_place (text : String) (h : "" ∉ s.values.paths) : Filled (s.place text) := by
  unfold place
  split
  · exact filled_error _
  · exact (filled_settle h).bind fun _ h => filled_ok h

theorem filled_places (texts : List String) (h : "" ∉ s.values.paths) :
    Filled (texts.foldlM place s) := by
  induction texts generalizing s with
  | nil => exact filled_ok h
  | cons text texts ih =>
    rw [List.foldlM_cons]
    exact (filled_place text h).bind fun _ h => ih h

theorem filled_plain (text : String) (h : "" ∉ s.values.paths) : Filled (s.plain text) := by
  unfold plain
  split
  · exact filled_ok h
  · exact filled_place text h

/-- No argument, and so no number of them, makes a path empty. -/
theorem filled_all (args : List String) (h : "" ∉ s.values.paths) :
    Filled (s.all topic g args) := by
  induction args generalizing s with
  | nil => exact filled_settle h
  | cons arg rest ih =>
    unfold all
    split
    · exact (filled_places rest h).bind fun _ h => filled_settle h
    · exact (filled_long topic g _ _ h).bind fun _ h => ih h
    · exact (filled_cluster topic g _ h).bind fun _ h => ih h
    · exact (filled_plain arg h).bind fun _ h => ih h

/-- A command works on paths that were given. -/
theorem paths_request {c : Command} {r : Request} (h : s.request c = .ok r) :
    r.paths ⊆ s.values.paths := by
  have houtput : s.output.toList ⊆ s.values.paths := by
    intro p hp
    rw [Option.mem_toList, output, Option.or_eq_some_iff] at hp
    rw [Values.mem_paths]
    rcases hp with hp | ⟨-, hp⟩
    · simp [hp]
    · simp [hp]
  cases c with
  | diff =>
    simp only [request] at h
    split at h
    · next base derived hbase hderived =>
      cases h
      refine List.cons_subset.2 ⟨?_, List.cons_subset.2 ⟨?_, houtput⟩⟩
      · simp [Values.mem_paths, hbase]
      · simp [Values.mem_paths, hderived]
    · cases h
  | restore =>
    simp only [request] at h
    split at h
    · next derived diff hderived hdiff =>
      cases h
      refine List.cons_subset.2 ⟨?_, List.cons_subset.2 ⟨?_, houtput⟩⟩
      · simp [Values.mem_paths, hderived]
      · simp [Values.mem_paths, hdiff]
    · cases h
  | list =>
    simp only [request] at h
    split at h
    · next input hinput =>
      cases h
      refine List.cons_subset.2 ⟨?_, List.nil_subset _⟩
      simp [Values.mem_paths, hinput]
    · cases h
  | config =>
    cases h
    exact List.nil_subset _

end Scan

/-! ## Command lines -/

theorem invocation_paths {outer : Scan} {c : Command} {args : List String} {i : Invocation}
    (h : invocation outer c args = .ok i) : "" ∉ i.request.paths := by
  obtain ⟨inner, hinner, h⟩ := bind_eq_ok h
  obtain ⟨-, -, h⟩ := bind_eq_ok h
  obtain ⟨r, hrequest, h⟩ := bind_eq_ok h
  obtain ⟨-, -, h⟩ := bind_eq_ok h
  cases h
  have hall := Scan.filled_all (some c) (Grammar.ofCommand c) args List.not_mem_nil inner hinner
  exact fun hmem => hall (Scan.paths_request hrequest hmem)

theorem parseAfter_paths {outer : Scan} {args : List String} {i : Invocation}
    (h : parseAfter outer args = .ok i) : "" ∉ i.request.paths := by
  induction args generalizing outer with
  | nil => cases h
  | cons arg rest ih =>
    unfold parseAfter at h
    split at h
    · cases h
    · obtain ⟨next, -, h⟩ := bind_eq_ok h
      exact ih h
    · obtain ⟨next, -, h⟩ := bind_eq_ok h
      exact ih h
    · split at h
      · exact invocation_paths h
      · cases h

/-- Every command line that stands for an invocation gives it paths that are not empty. -/
theorem parse_paths {args : List String} {i : Invocation} (h : parse args = .ok i) :
    "" ∉ i.request.paths := parseAfter_paths h

end CollectionDelta.CommandLine
