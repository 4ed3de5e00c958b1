import CollectionDelta.Proofs.FileTree.Path
import Mathlib.Data.List.Basic

/-!
Where the resource of a name lies below a root.

* `Path.PlainName`: the names of which each part leads one level down.
* `Path.components_eq_down_iff`: which parts of a name are a path of one component that leads down.
* `Path.foldl_push`: what a path is that has been extended by one such part after another.
* `Path.components_join_name`: a path below a root has the components of the root, and then only
  such as lead down; `Path.parent?_join_name` is its directory.
* `ResourceName.extend_eq`: the parts of a name are refused together or pushed together.
* `ResourceName.path_exact`: which names have a path below a root, and which path that is.
-/

namespace CollectionDelta

namespace Path

/-- Each part of the name leads one level down. -/
def PlainName (name : String) : Prop := ∀ p ∈ split name, Plain p

variable {root name s p : String}

/-! ## Parts of a name -/

theorem plainName_iff : PlainName name ↔ ∀ p ∈ split name, p ≠ "" ∧ p ≠ "." ∧ p ≠ ".." := by
  refine ⟨fun h p hp => (h p hp).ne, fun h p hp => ⟨?_, slash_not_mem_split hp⟩⟩
  have := h p hp
  simpa [ResourceName.isPlain, and_assoc] using this

theorem PlainName.ne_empty (h : PlainName name) : name ≠ "" := by
  rintro rfl
  exact (h "" (by rw [split_empty]; exact List.mem_singleton_self "")).ne.1 rfl

theorem split_of_no_slash (h : '/' ∉ s.toList) : split s = [s] := by
  have hs := split_intercalate (List.cons_ne_nil s []) (by simpa using h)
  rwa [String.intercalate_singleton] at hs

/-- A text without slash has one component at most. -/
theorem components_of_no_slash (h : '/' ∉ s.toList) :
    components s = if s = "" then [] else [.part (part s)] := by
  have hsplit := split_of_no_slash h
  have habs : isAbsolute s = false := by
    rw [Bool.eq_false_iff]
    intro habs
    obtain ⟨q, qs, hq⟩ := isAbsolute_iff_split.1 habs
    rw [hsplit] at hq
    cases hq
  rw [components, habs, essential_eq, hsplit, leadingDot_cons]
  by_cases hempty : s = ""
  · subst hempty
    simp
  · by_cases hdot : s = "."
    · subst hdot
      simp
    · simp [hempty, hdot]

theorem components_eq_down_iff (h : '/' ∉ s.toList) :
    components s = [.part (.down p)] ↔ p = s ∧ Plain s := by
  rw [components_of_no_slash h]
  constructor
  · intro hs
    split at hs
    · cases hs
    · next hempty =>
      simp only [List.cons.injEq, Component.part.injEq, and_true] at hs
      obtain ⟨rfl, hdot, hdots⟩ := eq_of_part_eq_down hs
      exact ⟨rfl, by simpa [ResourceName.isPlain, hdot, hdots] using hempty, h⟩
  · rintro ⟨rfl, hp⟩
    rw [if_neg hp.ne.1, hp.part_eq]

/-! ## Parts pushed one after another -/

theorem push_plain (h : Plain p) (path : String) : push path p = join path p := by
  refine if_neg fun habs => ?_
  rw [isAbsolute, decide_eq_true_iff] at habs
  exact h.no_slash (List.mem_of_head? habs)

/-- A path that ends in a part is not empty and does not end in a slash. -/
theorem separator_join (h : Plain p) (root : String) : separator (join root p) = "/" := by
  have hp : p.toList ≠ [] := fun hnil => h.ne.1 (String.toList_inj.1 (by simpa using hnil))
  refine if_neg ?_
  rintro (hempty | hslash)
  · have hlist := congrArg String.toList hempty
    simp [join, hp] at hlist
  · rw [endsInSlash, decide_eq_true_iff, join, String.toList_append,
      List.getLast?_append_of_ne_nil _ hp] at hslash
    exact h.no_slash (List.mem_of_getLast? hslash)

theorem join_join (h : Plain p) (root more : String) :
    join (join root p) more = join root (p ++ "/" ++ more) := by
  rw [join, separator_join h, join, join]
  simp only [String.append_assoc]

theorem foldl_push {ps : List String} (hne : ps ≠ []) (h : ∀ p ∈ ps, Plain p) (path : String) :
    ps.foldl push path = join path ("/".intercalate ps) := by
  induction ps generalizing path with
  | nil => exact absurd rfl hne
  | cons p ps ih =>
    have hp := h p (List.mem_cons_self ..)
    rw [List.foldl_cons, push_plain hp]
    by_cases hps : ps = []
    · subst hps
      rw [List.foldl_nil, String.intercalate_singleton]
    · rw [ih hps fun q hq => h q (List.mem_cons_of_mem p hq),
        String.intercalate_cons_of_ne_nil hps, join_join hp]

/-! ## Names as texts -/

theorem plainName_intercalate {ts : List String} (hne : ts ≠ []) (h : ∀ p ∈ ts, Plain p) :
    split ("/".intercalate ts) = ts := split_intercalate hne fun p hp => (h p hp).no_slash

theorem PlainName.parts_eq (h : PlainName name) : parts name = (split name).map .down := by
  rw [parts, filter_plain h, map_part_plain h]

theorem mem_of_mem_name {c : Char} (h : c ∈ name.toList) :
    c = '/' ∨ ∃ p ∈ split name, c ∈ p.toList := by
  have hparts : ∀ ts : List String, c ∈ ("/".intercalate ts).toList →
      c = '/' ∨ ∃ p ∈ ts, c ∈ p.toList := by
    intro ts
    induction ts with
    | nil => simp
    | cons p ts ih =>
      intro h
      by_cases hnil : ts = []
      · subst hnil
        rw [String.intercalate_singleton] at h
        exact .inr ⟨p, List.mem_cons_self .., h⟩
      · rw [String.intercalate_cons_of_ne_nil hnil, String.toList_append, String.toList_append,
          List.mem_append, List.mem_append] at h
        rcases h with (h | h) | h
        · exact .inr ⟨p, List.mem_cons_self .., h⟩
        · exact .inl (by simpa using h)
        · refine (ih h).imp id ?_
          rintro ⟨q, hq, hc⟩
          exact ⟨q, List.mem_cons_of_mem p hq, hc⟩
  rw [← intercalate_split name] at h
  exact hparts _ h

theorem split_injective {a b : String} (h : split a = split b) : a = b := by
  rw [← intercalate_split a, h, intercalate_split]

/-- The path of something below a root does not end in a slash. -/
theorem endsInSlash_join (root : String) (h : PlainName name) :
    endsInSlash (join root name) = false := by
  rw [Bool.eq_false_iff]
  intro hslash
  obtain ⟨stem, hjoin, -, -⟩ := exists_stem root
  obtain ⟨cs, hcs⟩ : ∃ cs, (join root name).toList = cs ++ ['/'] := by
    rw [endsInSlash, decide_eq_true_iff, List.getLast?_eq_some_iff] at hslash
    exact hslash
  have hlast : split (join root name) = split (String.ofList cs) ++ [""] := by
    have heq : join root name = String.ofList cs ++ "/" ++ "" := by
      apply String.toList_inj.1
      rw [hcs]
      simp
    rw [heq, split_slash, split_empty]
  -- the last text after a slash is a name, and no name is empty
  rw [hjoin] at hlast
  have hlast := congrArg List.getLast? hlast
  rw [List.getLast?_append_of_ne_nil _ (split_ne_nil name), List.getLast?_concat,
    List.getLast?_eq_some_iff] at hlast
  obtain ⟨qs, hqs⟩ := hlast
  have hempty : "" ∈ split name := hqs ▸ List.mem_append_right qs (List.mem_singleton_self "")
  exact (h "" hempty).ne.1 rfl

theorem nul_not_mem_join (hroot : '\x00' ∉ root.toList) (h : ∀ p ∈ split name, '\x00' ∉ p.toList) :
    '\x00' ∉ (join root name).toList := by
  rw [join, String.toList_append, String.toList_append, List.mem_append, List.mem_append]
  rintro ((hmem | hmem) | hmem)
  · exact hroot hmem
  · revert hmem
    rw [separator]
    split <;> simp
  · rcases mem_of_mem_name hmem with heq | ⟨p, hp, hmem⟩
    · cases heq
    · exact h p hp hmem

/-! ## Paths below a root -/

theorem isAbsolute_of_plainName (h : PlainName name) : isAbsolute name = false := by
  rw [Bool.eq_false_iff]
  intro habs
  obtain ⟨p, ps, hsplit⟩ := isAbsolute_iff_split.1 habs
  exact (h "" (by rw [hsplit]; exact List.mem_cons_self)).ne.1 rfl

theorem essential_of_plainName (h : PlainName name) : essential name = split name := by
  have htrim : Trim false ([] ++ split name) := Trim.append ⟨by simp, by simp, by simp⟩ h
  have hname : ofParts false (split name) = name := by
    rw [ofParts, if_neg Bool.false_ne_true, String.empty_append, intercalate_split]
  rw [List.nil_append] at htrim
  rw [← essential_ofParts htrim, hname]

theorem isAbsolute_join_name (root : String) (h : PlainName name) :
    isAbsolute (join root name) = isAbsolute root := by
  by_cases hroot : root = ""
  · subst hroot
    rw [join, separator, if_pos (.inl rfl), String.empty_append, String.empty_append,
      isAbsolute_of_plainName h]
    rfl
  · exact isAbsolute_join hroot name

/-- The directory of a file below a root, which may be the directory where relative paths start. -/
theorem parent?_join_name (root : String) (h : PlainName name) : parent? (join root name) =
    some (ofParts (isAbsolute root) (essential root ++ (split name).dropLast)) := by
  by_cases hroot : root = ""
  · subst hroot
    have hjoin : join "" name = name := by
      rw [join, separator, if_pos (.inl rfl), String.empty_append, String.empty_append]
    rw [hjoin, parent?_eq, essential_of_plainName h, if_neg (split_ne_nil name),
      isAbsolute_of_plainName h]
    rfl
  · have hjoin := parent?_join hroot (split_ne_nil name) h
    rwa [intercalate_split] at hjoin

/-- The root is not left: all that follows its components leads down. -/
theorem components_join_name (root : String) (h : PlainName name) :
    components (join root name) =
      components root ++ (split name).map fun p => .part (.down p) := by
  have hparts : (split name).map (fun p => Component.part (part p)) =
      (split name).map fun p => .part (.down p) :=
    List.map_congr_left fun p hp => congrArg Component.part (h p hp).part_eq
  have hessential : essential (join root name) = essential root ++ split name := by
    by_cases hroot : root = ""
    · subst hroot
      rw [join, separator, if_pos (.inl rfl), String.empty_append, String.empty_append,
        essential_of_plainName h]
      rfl
    · have hjoin := essential_join hroot (split_ne_nil name) h
      rwa [intercalate_split] at hjoin
  rw [components, isAbsolute_join_name root h, hessential, List.map_append, hparts, components,
    List.append_assoc]

end Path

/-! ## The path of a name -/

namespace ResourceName

variable {root name path : String}

/-- The parts are pushed one after another, unless one of them is refused. -/
theorem extend_eq (name path : String) {ps : List String} (h : ∀ p ∈ ps, '/' ∉ p.toList) :
    extend name path ps =
      if ∀ p ∈ ps, Path.Plain p then .ok (ps.foldl Path.push path) else .error (invalid name) := by
  induction ps generalizing path with
  | nil => simp [extend]
  | cons p ps ih =>
    have hp := h p (List.mem_cons_self ..)
    have hrest := fun path => ih path fun q hq => h q (List.mem_cons_of_mem p hq)
    by_cases hplain : Path.Plain p
    · have hdown := (Path.components_eq_down_iff hp).2 ⟨rfl, hplain⟩
      rw [extend, hdown]
      simp only [hrest, List.forall_mem_cons, hplain, true_and, List.foldl_cons]
    · rw [extend, if_neg fun hall => hplain (hall p (List.mem_cons_self ..))]
      split
      · next q hdown => exact absurd ((Path.components_eq_down_iff hp).1 hdown).2 hplain
      · rfl

theorem path_eq (root : String) {name : String} (h : Path.PlainName name) :
    ResourceName.path root name =
      if '\\' ∈ name.toList then .error (invalid name) else .ok (Path.join root name) := by
  have hall : ∀ p ∈ Path.split name, Path.Plain p := h
  rw [ResourceName.path, extend_eq name root fun p hp => (h p hp).no_slash, if_pos hall,
    Path.foldl_push (Path.split_ne_nil name) h, Path.intercalate_split]
  simp [h.ne_empty]

theorem path_of_not_plain (root : String) {name : String} (h : ¬ Path.PlainName name) :
    ResourceName.path root name = .error (invalid name) := by
  have hsome : ¬ ∀ p ∈ Path.split name, Path.Plain p := h
  rw [ResourceName.path, extend_eq name root fun p => Path.slash_not_mem_split, if_neg hsome,
    ite_self]

theorem path_eq_ok_iff : ResourceName.path root name = .ok path ↔
    Path.PlainName name ∧ '\\' ∉ name.toList ∧ path = Path.join root name := by
  by_cases h : Path.PlainName name
  · rw [path_eq root h]
    by_cases hslash : '\\' ∈ name.toList
    · simp [hslash]
    · simp [h, hslash, eq_comm]
  · rw [path_of_not_plain root h]
    simp [h]

theorem path_eq_ok (h : ResourceName.path root name = .ok path) :
    Path.PlainName name ∧ path = Path.join root name :=
  have hok := path_eq_ok_iff.1 h
  ⟨hok.1, hok.2.2⟩

theorem path_eq_error {f : Fault} (h : ResourceName.path root name = .error f) :
    f = invalid name := by
  by_cases hplain : Path.PlainName name
  · rw [path_eq root hplain] at h
    split at h
    · exact (Except.error.inj h).symm
    · cases h
  · rw [path_of_not_plain root hplain] at h
    exact (Except.error.inj h).symm

/-- A name has a path below a root if and only if no part between slashes is empty, a dot or two, and
there is no backslash in it. The path is the root and the name with one slash between, so that no two
names have one path, and it goes down from the root by each part. All other names are refused as
invalid. -/
theorem path_exact (root name : String) :
    ((∃ path, ResourceName.path root name = .ok path) ↔ name ≠ "" ∧ '\\' ∉ name.toList ∧
        ∀ part ∈ Path.split name, part ≠ "" ∧ part ≠ "." ∧ part ≠ "..") ∧
      (∀ path, ResourceName.path root name = .ok path →
        path = root ++ (if root = "" ∨ Path.endsInSlash root = true then "" else "/") ++ name ∧
          Path.components path =
            Path.components root ++ (Path.split name).map (fun part => .part (.down part)) ∧
          ∀ other, ResourceName.path root other = .ok path → other = name) ∧
      ∀ f, ResourceName.path root name = .error f → f.kind = .invalidInput := by
  refine ⟨?_, fun path h => ?_, fun f h => ?_⟩
  · rw [← Path.plainName_iff]
    constructor
    · rintro ⟨path, h⟩
      obtain ⟨hplain, hslash, -⟩ := path_eq_ok_iff.1 h
      exact ⟨hplain.ne_empty, hslash, hplain⟩
    · rintro ⟨-, hslash, hplain⟩
      exact ⟨_, path_eq_ok_iff.2 ⟨hplain, hslash, rfl⟩⟩
  · obtain ⟨hplain, rfl⟩ := path_eq_ok h
    refine ⟨rfl, Path.components_join_name root hplain, fun other hother => ?_⟩
    obtain ⟨-, heq⟩ := path_eq_ok hother
    exact (String.append_right_inj _).1 heq.symm
  · rw [path_eq_error h]
    rfl

/-- A root that ends in a slash, and a name with dots that are not alone between its slashes. -/
theorem path_exact_dots :
    ResourceName.path "out/" "...a/b.." = .ok "out/...a/b.." ∧
      Path.components "out/...a/b.." =
        Path.components "out/" ++ [.part (.down "...a"), .part (.down "b..")] ∧
      ∀ other, ResourceName.path "out/" other = .ok "out/...a/b.." → other = "...a/b.." := by
  have hpath : ResourceName.path "out/" "...a/b.." = .ok "out/...a/b.." := by decide +kernel
  have hsplit : Path.split "...a/b.." = ["...a", "b.."] := by decide +kernel
  obtain ⟨-, hok, -⟩ := path_exact "out/" "...a/b.."
  obtain ⟨-, hcomponents, hinjective⟩ := hok _ hpath
  rw [hsplit] at hcomponents
  exact ⟨hpath, hcomponents, hinjective⟩

end ResourceName
end CollectionDelta
