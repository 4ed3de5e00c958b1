import CollectionDelta.FileTree.Path

/-!
Paths as texts and paths as parts.

* `Path.split_slash`, `Path.split_intercalate`: the texts between slashes.
* `Path.Plain`: a part that leads one level down.
* `Path.exists_stem`, `Path.parts_join`: the parts of a path and of something below it.
* `Path.ofParts`, `Path.Trim`: paths put together from parts of which none can be left out;
  `essential_ofParts` says that such a path keeps its parts, `essential_join` that a path below
  another one does.
* `Path.parent?_eq`, `Path.essential_parent?`: the parent of a path is put together from all its
  parts but the last;
  `ofParts_sublist`, `length_essential_le`: such a path is not longer than the one with the parts.
-/

namespace CollectionDelta.Path

/-! ## Texts between slashes -/

theorem split_ne_nil (s : String) : split s ≠ [] := by simp [split]

theorem split_slash (a b : String) : split (a ++ "/" ++ b) = split a ++ split b := by
  have hlist : (a ++ "/" ++ b).toList = a.toList ++ '/' :: b.toList := by simp
  rw [split, hlist, List.splitOn_append_cons_self, List.map_append]
  rfl

theorem split_empty : split "" = [""] := by simp [split]

theorem split_intercalate {ps : List String} (hne : ps ≠ []) (h : ∀ p ∈ ps, '/' ∉ p.toList) :
    split ("/".intercalate ps) = ps := by
  have hlist : ∀ l ∈ ps.map String.toList, '/' ∉ l := by
    intro l hl
    obtain ⟨p, hp, rfl⟩ := List.mem_map.1 hl
    exact h p hp
  have hslash : "/".toList = ['/'] := rfl
  rw [split, String.toList_intercalate, hslash,
    List.splitOn_intercalate '/' hlist (by simpa using hne), List.map_map]
  calc ps.map (String.ofList ∘ String.toList) = ps.map id :=
        List.map_congr_left fun p _ => String.ofList_toList
    _ = ps := List.map_id ps

theorem intercalate_split (s : String) : "/".intercalate (split s) = s := by
  apply String.toList_inj.1
  have hslash : "/".toList = ['/'] := rfl
  have hmap : (split s).map String.toList = s.toList.splitOn '/' := by
    rw [split, List.map_map]
    calc (s.toList.splitOn '/').map (String.toList ∘ String.ofList)
        = (s.toList.splitOn '/').map id := List.map_congr_left fun l _ => String.toList_ofList
      _ = s.toList.splitOn '/' := List.map_id _
  rw [String.toList_intercalate, hmap, hslash, List.intercalate_splitOn]

theorem slash_not_mem_split {s p : String} (h : p ∈ split s) : '/' ∉ p.toList := by
  have hlist : ∀ cs : List Char, ∀ l ∈ cs.splitOn '/', '/' ∉ l := by
    intro cs
    induction cs with
    | nil => simp
    | cons c cs ih =>
      rw [List.splitOn_cons_eq_if_modifyHead]
      split
      · intro l hl
        rcases List.mem_cons.1 hl with rfl | hl
        · exact List.not_mem_nil
        · exact ih l hl
      · next hc =>
        have hne : '/' ≠ c := fun heq => hc (by rw [heq, beq_self_eq_true])
        generalize cs.splitOn '/' = ls at ih
        cases ls with
        | nil => simp
        | cons l₀ ls =>
          intro l hl
          rcases List.mem_cons.1 hl with rfl | hl
          · rw [List.mem_cons, not_or]
            exact ⟨hne, ih l₀ (List.mem_cons_self ..)⟩
          · exact ih l (List.mem_cons_of_mem _ hl)
  obtain ⟨l, hl, rfl⟩ := List.mem_map.1 h
  rw [String.toList_ofList]
  exact hlist _ l hl

/-! ## Parts -/

/-- A part that leads one level down. -/
structure Plain (p : String) : Prop where
  isPlain : ResourceName.isPlain p = true
  no_slash : '/' ∉ p.toList

instance (p : String) : Decidable (Plain p) :=
  decidable_of_iff (ResourceName.isPlain p = true ∧ '/' ∉ p.toList)
    ⟨fun ⟨h, h'⟩ => ⟨h, h'⟩, fun ⟨h, h'⟩ => ⟨h, h'⟩⟩

theorem Plain.ne {p : String} (h : Plain p) : p ≠ "" ∧ p ≠ "." ∧ p ≠ ".." := by
  have := h.isPlain
  simpa [ResourceName.isPlain, and_assoc] using this

theorem Plain.part_eq {p : String} (h : Plain p) : part p = .down p := by
  rw [part, if_neg h.ne.2.1, if_neg h.ne.2.2]

theorem eq_of_part_eq_down {s p : String} (h : part s = .down p) : s = p ∧ p ≠ "." ∧ p ≠ ".." := by
  unfold part at h
  split at h
  · cases h
  · next hdot =>
    split at h
    · cases h
    · next hdots =>
      cases h
      exact ⟨rfl, hdot, hdots⟩

theorem eq_of_map_part {ps ts : List String} (h : ps.map part = ts.map .down) : ps = ts := by
  induction ps generalizing ts with
  | nil => exact (List.map_eq_nil_iff.1 h.symm).symm
  | cons p ps ih =>
    cases ts with
    | nil => cases h
    | cons s ts =>
      obtain ⟨hp, hrest⟩ := List.cons.inj h
      rw [(eq_of_part_eq_down hp).1, ih hrest]

theorem plain_of_mem_parts {s p : String} (h : .down p ∈ parts s) : Plain p := by
  obtain ⟨q, hq, hpart⟩ := List.mem_map.1 h
  obtain ⟨rfl, hdot, hdots⟩ := eq_of_part_eq_down hpart
  obtain ⟨hq, hempty⟩ := List.mem_filter.1 hq
  refine ⟨?_, slash_not_mem_split hq⟩
  simpa [ResourceName.isPlain, hdot, hdots] using hempty

theorem map_part_plain {ps : List String} (h : ∀ p ∈ ps, Plain p) :
    ps.map part = ps.map Part.down := List.map_congr_left fun p hp => (h p hp).part_eq

theorem filter_plain {ps : List String} (h : ∀ p ∈ ps, Plain p) :
    ps.filter (· ≠ "") = ps := by
  rw [List.filter_eq_self]
  exact fun p hp => decide_eq_true (h p hp).ne.1

/-- What a path below a root has in front of the texts of what is below it. -/
theorem exists_stem (root : String) : ∃ stem : List String,
    (∀ below, split (join root below) = stem ++ split below) ∧
      (split root = stem ∨ split root = stem ++ [""]) ∧ (root ≠ "" → stem ≠ []) := by
  by_cases hempty : root = ""
  · subst hempty
    refine ⟨[], fun below => ?_, .inr split_empty, fun h => absurd rfl h⟩
    simp [join, separator]
  · by_cases hslash : endsInSlash root = true
    · obtain ⟨before, hbefore⟩ : ∃ before, root = before ++ "/" := by
        rw [endsInSlash, decide_eq_true_iff, List.getLast?_eq_some_iff] at hslash
        obtain ⟨cs, hcs⟩ := hslash
        refine ⟨String.ofList cs, String.toList_inj.1 ?_⟩
        rw [hcs]
        simp
      refine ⟨split before, fun below => ?_, .inr ?_, fun _ => split_ne_nil before⟩
      · have hsep : separator root = "" := if_pos (.inr hslash)
        rw [join, hsep, String.append_empty, hbefore, split_slash]
      · rw [hbefore, ← split_empty, ← split_slash, String.append_empty]
    · refine ⟨split root, fun below => ?_, .inl rfl, fun _ => split_ne_nil root⟩
      have hjoin : join root below = root ++ "/" ++ below := by
        simp [join, separator, hslash, hempty]
      rw [hjoin, split_slash]

theorem parts_join (root below : String) : parts (join root below) = parts root ++ parts below := by
  obtain ⟨stem, hjoin, hroot, -⟩ := exists_stem root
  have hstem : (split root).filter (· ≠ "") = stem.filter (· ≠ "") := by
    rcases hroot with hroot | hroot
    · rw [hroot]
    · rw [hroot]
      simp
  rw [parts, hjoin, List.filter_append, List.map_append, ← hstem]
  rfl

theorem isAbsolute_join {root : String} (h : root ≠ "") (below : String) :
    isAbsolute (join root below) = isAbsolute root := by
  have hlist : root.toList ≠ [] := fun hnil => h (String.toList_inj.1 (by simpa using hnil))
  obtain ⟨c, cs, hcs⟩ := List.exists_cons_of_ne_nil hlist
  simp [isAbsolute, join, hcs]

theorem isAbsolute_iff_split {s : String} :
    isAbsolute s = true ↔ ∃ p ps, split s = "" :: p :: ps := by
  rw [isAbsolute, decide_eq_true_iff, split]
  cases s.toList with
  | nil => simp
  | cons c cs =>
    rw [List.head?_cons, List.splitOn_cons_eq_if_modifyHead]
    obtain ⟨l, ls, hls⟩ := List.exists_cons_of_ne_nil (List.splitOn_ne_nil '/' cs)
    by_cases hc : c = '/'
    · simp [hc, hls]
    · simp [hc, hls, String.ofList_eq_empty_iff]

/-! ## Paths of parts that count -/

/-- The path of some parts. -/
def ofParts (absolute : Bool) (ps : List String) : String :=
  (if absolute then "/" else "") ++ "/".intercalate ps

/-- No part can be left out: none is empty, and a dot stands at most at the beginning of a path that
is relative. -/
structure Trim (absolute : Bool) (ps : List String) : Prop where
  nonempty : ∀ p ∈ ps, p ≠ ""
  no_slash : ∀ p ∈ ps, '/' ∉ p.toList
  no_dot : ∀ p ∈ if absolute then ps else ps.tail, p ≠ "."

theorem Trim.of_append {absolute : Bool} {ps qs : List String} (h : Trim absolute (ps ++ qs)) :
    Trim absolute ps where
  nonempty p hp := h.nonempty p (List.mem_append_left qs hp)
  no_slash p hp := h.no_slash p (List.mem_append_left qs hp)
  no_dot p hp := by
    refine h.no_dot p ?_
    cases absolute with
    | true => exact List.mem_append_left qs hp
    | false =>
      cases ps with
      | nil => cases hp
      | cons q ps => exact List.mem_append_left qs hp

theorem Trim.append {absolute : Bool} {ps qs : List String} (h : Trim absolute ps)
    (hqs : ∀ q ∈ qs, Plain q) : Trim absolute (ps ++ qs) where
  nonempty p hp := (List.mem_append.1 hp).elim (h.nonempty p) fun hp => (hqs p hp).ne.1
  no_slash p hp := (List.mem_append.1 hp).elim (h.no_slash p) fun hp => (hqs p hp).no_slash
  no_dot p hp := by
    have hmem : (p ∈ if absolute then ps else ps.tail) ∨ p ∈ qs := by
      cases absolute with
      | true => exact List.mem_append.1 hp
      | false =>
        have hp : p ∈ (ps ++ qs).tail := hp
        cases ps with
        | nil => exact .inr (List.mem_of_mem_tail hp)
        | cons q ps => exact List.mem_append.1 hp
    exact hmem.elim (h.no_dot p) fun hp => (hqs p hp).ne.2.1

theorem filter_trim {absolute : Bool} {ps : List String} (h : Trim absolute ps) :
    ps.filter (· ≠ "") = ps := by
  rw [List.filter_eq_self]
  exact fun p hp => decide_eq_true (h.nonempty p hp)

variable {absolute : Bool} {ps : List String}

theorem split_ofParts (h : Trim absolute ps) : split (ofParts absolute ps) =
    (if absolute then [""] else []) ++ if ps = [] then [""] else ps := by
  have hbody : split ("/".intercalate ps) = if ps = [] then [""] else ps := by
    split
    · next hnil => rw [hnil]; exact split_empty
    · next hne => exact split_intercalate hne h.no_slash
  cases absolute with
  | false => simpa [ofParts] using hbody
  | true =>
    have hslash : ofParts true ps = "" ++ "/" ++ "/".intercalate ps := by simp [ofParts]
    rw [hslash, split_slash, split_empty, hbody]
    rfl

theorem parts_ofParts (h : Trim absolute ps) : parts (ofParts absolute ps) = ps.map part := by
  have hfilter : (split (ofParts absolute ps)).filter (· ≠ "") = ps := by
    rw [split_ofParts h, List.filter_append]
    have hhead : (if absolute then [""] else []).filter (· ≠ "") = [] := by
      cases absolute <;> rfl
    have hbody : (if ps = [] then [""] else ps).filter (· ≠ "") = ps := by
      split
      · next hnil => rw [hnil]; rfl
      · exact filter_trim h
    rw [hhead, hbody, List.nil_append]
  rw [parts, hfilter]

theorem isAbsolute_ofParts (h : Trim absolute ps) :
    isAbsolute (ofParts absolute ps) = absolute := by
  rw [Bool.eq_iff_iff, isAbsolute_iff_split, split_ofParts h]
  cases absolute with
  | true =>
    cases ps with
    | nil => simp
    | cons p ps => simp
  | false =>
    cases ps with
    | nil => simp
    | cons p ps => simpa using fun hp => absurd hp (h.nonempty p (List.mem_cons_self ..))

/-! ## Which parts count -/

/-- The dot that a path begins with, if it does. -/
def leadingDot (ps : List String) : List String := (ps.takeWhile (· = ".")).take 1

theorem essential_eq (s : String) : essential s = leadingDot (split s) ++
    ((split s).drop (leadingDot (split s)).length).filter fun p => p ≠ "" ∧ p ≠ "." := rfl

theorem leadingDot_cons (p : String) (ps : List String) :
    leadingDot (p :: ps) = if p = "." then ["."] else [] := by
  by_cases hp : p = "."
  · simp [leadingDot, hp]
  · simp [leadingDot, hp]

theorem filter_counting {ps : List String} (h : ∀ p ∈ ps, p ≠ "" ∧ p ≠ ".") :
    ps.filter (fun p => p ≠ "" ∧ p ≠ ".") = ps := by
  rw [List.filter_eq_self]
  exact fun p hp => decide_eq_true (h p hp)

theorem essential_ofParts (h : Trim absolute ps) : essential (ofParts absolute ps) = ps := by
  rw [essential_eq, split_ofParts h]
  cases absolute with
  | true =>
    have hps := filter_counting fun p hp => ⟨h.nonempty p hp, h.no_dot p hp⟩
    cases ps with
    | nil => simp [leadingDot_cons]
    | cons p ps => simpa [leadingDot_cons] using hps
  | false =>
    cases ps with
    | nil => simp [leadingDot_cons]
    | cons p ps =>
      have hps : ps.filter (fun p => p ≠ "" ∧ p ≠ ".") = ps := filter_counting fun q hq =>
        ⟨h.nonempty q (List.mem_cons_of_mem p hq), h.no_dot q hq⟩
      have hp := h.nonempty p (List.mem_cons_self ..)
      by_cases hdot : p = "."
      · simpa [leadingDot_cons, hdot] using hps
      · simpa [leadingDot_cons, hdot, hp] using hps

theorem trim_essential (s : String) : Trim (isAbsolute s) (essential s) := by
  have hmem : ∀ p ∈ essential s, p = "." ∨ p ∈ split s ∧ p ≠ "" ∧ p ≠ "." := by
    intro p hp
    rw [essential_eq, List.mem_append, List.mem_filter, decide_eq_true_iff] at hp
    rcases hp with hp | ⟨hp, hne⟩
    · have hdot := List.all_eq_true.1 List.all_takeWhile p (List.mem_of_mem_take hp)
      exact .inl (of_decide_eq_true hdot)
    · exact .inr ⟨List.mem_of_mem_drop hp, hne⟩
  refine ⟨fun p hp => ?_, fun p hp => ?_, fun p hp => ?_⟩
  · rcases hmem p hp with rfl | ⟨-, hne, -⟩
    · decide
    · exact hne
  · rcases hmem p hp with rfl | ⟨hsplit, -, -⟩
    · decide
    · exact slash_not_mem_split hsplit
  · obtain ⟨q, qs, hsplit⟩ := List.exists_cons_of_ne_nil (split_ne_nil s)
    have hrest : ∀ r ∈ qs.filter (fun p => p ≠ "" ∧ p ≠ "."), r ≠ "." := fun r hr =>
      (of_decide_eq_true (List.mem_filter.1 hr).2).2
    rw [essential_eq, hsplit, leadingDot_cons] at hp
    by_cases habs : isAbsolute s = true
    · obtain ⟨r, rs, habs'⟩ := isAbsolute_iff_split.1 habs
      rw [hsplit] at habs'
      obtain ⟨rfl, -⟩ := List.cons.inj habs'
      rw [if_pos habs] at hp
      exact hrest p (by simpa using hp)
    · rw [if_neg habs] at hp
      by_cases hdot : q = "."
      · exact hrest p (by simpa [hdot] using hp)
      · have hp := List.mem_of_mem_tail hp
        simp only [if_neg hdot, List.nil_append, List.length_nil, List.drop_zero,
          List.mem_filter, decide_eq_true_eq] at hp
        exact hp.2.2

/-- The parts of a path below another one that count: those of that one, and all that are below. -/
theorem essential_join {root : String} (hroot : root ≠ "") {ts : List String} (hne : ts ≠ [])
    (hts : ∀ p ∈ ts, Plain p) :
    essential (join root ("/".intercalate ts)) = essential root ++ ts := by
  obtain ⟨stem, hjoin, hsplit, hstem⟩ := exists_stem root
  obtain ⟨q, qs, rfl⟩ := List.exists_cons_of_ne_nil (hstem hroot)
  have hcount := filter_counting fun p hp => ⟨(hts p hp).ne.1, (hts p hp).ne.2.1⟩
  rw [essential_eq, essential_eq, hjoin, split_intercalate hne fun p hp => (hts p hp).no_slash]
  -- the last text of the root is empty if the root ends in a slash, and does not count
  have hdrop : ((split root).drop (leadingDot (q :: qs)).length).filter
      (fun p => p ≠ "" ∧ p ≠ ".") = ((q :: qs).drop (leadingDot (q :: qs)).length).filter
      fun p => p ≠ "" ∧ p ≠ "." := by
    rcases hsplit with hsplit | hsplit
    · rw [hsplit]
    · rw [hsplit, List.drop_append_of_le_length, List.filter_append]
      · simp
      · rw [leadingDot_cons]
        split <;> simp
  have hhead : leadingDot (split root) = leadingDot (q :: qs) := by
    rcases hsplit with hsplit | hsplit
    · rw [hsplit]
    · rw [hsplit, List.cons_append, leadingDot_cons, leadingDot_cons]
  have hlead : leadingDot (q :: qs ++ ts) = leadingDot (q :: qs) := by
    rw [List.cons_append, leadingDot_cons, leadingDot_cons]
  rw [hhead, hdrop, hlead, List.drop_append_of_le_length, List.filter_append, hcount,
    List.append_assoc]
  rw [leadingDot_cons]
  split <;> simp

/-! ## Parents -/

theorem parent?_eq (s : String) : parent? s =
    if essential s = [] then none else some (ofParts (isAbsolute s) (essential s).dropLast) := by
  rw [parent?]
  split
  · next h => rw [if_pos h]
  · next p ps h =>
    rw [h, if_neg (List.cons_ne_nil p ps)]
    rfl

theorem parent?_ofParts (h : Trim absolute ps) (hne : ps ≠ []) :
    parent? (ofParts absolute ps) = some (ofParts absolute ps.dropLast) := by
  rw [parent?_eq, essential_ofParts h, isAbsolute_ofParts h, if_neg hne]

/-- The parent of a path has all its parts that count but the last. -/
theorem essential_parent? {s p : String} (h : parent? s = some p) :
    isAbsolute p = isAbsolute s ∧ ∃ last, essential s = essential p ++ [last] := by
  rw [parent?_eq] at h
  split at h
  · cases h
  · next hne =>
    cases h
    obtain ⟨ps, last, hs⟩ : ∃ ps last, essential s = ps ++ [last] :=
      ⟨_, _, (List.dropLast_concat_getLast hne).symm⟩
    have htrim := trim_essential s
    rw [hs] at htrim
    rw [hs, List.dropLast_concat, essential_ofParts htrim.of_append]
    exact ⟨isAbsolute_ofParts htrim.of_append, last, rfl⟩

theorem parent?_join {root : String} (hroot : root ≠ "") {ts : List String} (hne : ts ≠ [])
    (hts : ∀ p ∈ ts, Plain p) : parent? (join root ("/".intercalate ts)) =
      some (ofParts (isAbsolute root) (essential root ++ ts.dropLast)) := by
  have hcount : essential root ++ ts ≠ [] := fun h => hne (List.append_eq_nil_iff.1 h).2
  rw [parent?_eq, essential_join hroot hne hts, isAbsolute_join hroot, if_neg hcount,
    List.dropLast_append_of_ne_nil hne]

/-! ## Characters -/

theorem intercalate_sublist (sep : List Char) {xs ys : List (List Char)} (h : xs.Sublist ys) :
    (sep.intercalate xs).Sublist (sep.intercalate ys) := by
  induction h with
  | slnil => exact List.Sublist.refl _
  | @cons xs ys y h ih =>
    by_cases hys : ys = []
    · subst hys
      rw [List.sublist_nil.1 h]
      exact List.nil_sublist _
    · rw [List.intercalate_cons_of_ne_nil hys]
      exact ih.trans (List.sublist_append_right _ _)
  | @cons_cons xs ys x h ih =>
    by_cases hxs : xs = []
    · subst hxs
      by_cases hys : ys = []
      · subst hys
        exact List.Sublist.refl _
      · rw [List.intercalate_singleton, List.intercalate_cons_of_ne_nil hys, List.append_assoc]
        exact List.sublist_append_left _ _
    · have hys : ys ≠ [] := fun hnil => hxs (List.sublist_nil.1 (hnil ▸ h))
      rw [List.intercalate_cons_of_ne_nil hxs, List.intercalate_cons_of_ne_nil hys]
      exact List.Sublist.append (List.Sublist.refl _) ih

theorem essential_sublist (s : String) : (essential s).Sublist (split s) := by
  have htake : leadingDot (split s) = (split s).take (leadingDot (split s)).length := by
    obtain ⟨p, ps, hsplit⟩ := List.exists_cons_of_ne_nil (split_ne_nil s)
    rw [hsplit, leadingDot_cons]
    split
    · next hp => rw [hp]; rfl
    · rfl
  rw [essential_eq]
  conv => rhs; rw [← List.take_append_drop (leadingDot (split s)).length (split s), ← htake]
  exact List.Sublist.append (List.Sublist.refl _) List.filter_sublist

/-- A path of some of the parts that count in another one consists of characters of that one. -/
theorem ofParts_sublist {s : String} {ps : List String} (h : ps.Sublist (essential s)) :
    (ofParts (isAbsolute s) ps).toList.Sublist s.toList := by
  have hslash : "/".toList = ['/'] := rfl
  have hs : s.toList = ['/'].intercalate ((split s).map String.toList) := by
    rw [← hslash, ← String.toList_intercalate, intercalate_split]
  have hsub := h.trans (essential_sublist s)
  cases habs : isAbsolute s with
  | false =>
    rw [hs]
    simpa [ofParts, hslash] using intercalate_sublist ['/'] (hsub.map String.toList)
  | true =>
    obtain ⟨q, qs, hsplit⟩ := isAbsolute_iff_split.1 habs
    cases ps with
    | nil =>
      rw [hs, hsplit]
      simp [ofParts, hslash]
    | cons p ps =>
      have hp : p ≠ "" := (trim_essential s).nonempty p (h.subset (List.mem_cons_self ..))
      -- the first text of the path is empty, and the part is none of it
      have htail : (p :: ps).Sublist (q :: qs) := by
        rw [hsplit] at hsub
        cases hsub with
        | cons _ hsub => exact hsub
        | cons_cons => exact absurd rfl hp
      have hall := intercalate_sublist ['/'] ((htail.cons_cons "").map String.toList)
      rw [hs, hsplit]
      simpa [ofParts, hslash] using hall

/-- The parent of a path consists of characters of the path. -/
theorem sublist_of_parent? {s p : String} (h : parent? s = some p) : p.toList.Sublist s.toList := by
  rw [parent?_eq] at h
  split at h
  · cases h
  · cases h
    exact ofParts_sublist (List.dropLast_sublist _)

theorem size_le_of_sublist {s t : String} (h : s.toList.Sublist t.toList) :
    s.utf8ByteSize ≤ t.utf8ByteSize := by
  have hlist : ∀ {l m : List Char}, l.Sublist m → l.utf8Encode.size ≤ m.utf8Encode.size := by
    intro l m hlm
    induction hlm with
    | slnil => exact Nat.le_refl _
    | cons c _ ih =>
      rw [List.utf8Encode_cons, ByteArray.size_append]
      omega
    | @cons_cons l m c _ ih =>
      rw [List.utf8Encode_cons, List.utf8Encode_cons (l := m), ByteArray.size_append,
        ByteArray.size_append]
      omega
  rw [← String.size_toByteArray, ← String.size_toByteArray, ← String.utf8Encode_toList,
    ← String.utf8Encode_toList]
  exact hlist h

/-- A path is at least as long as it has parts. -/
theorem length_le_ofParts (absolute : Bool) {ps : List String} (h : ∀ p ∈ ps, p ≠ "") :
    ps.length ≤ (ofParts absolute ps).length := by
  have hbody : ps.length ≤ ("/".intercalate ps).length := by
    induction ps with
    | nil => exact Nat.zero_le _
    | cons p ps ih =>
      have hp : 0 < p.length := by
        rw [Nat.pos_iff_ne_zero, ne_eq, String.length_eq_zero_iff]
        exact h p (List.mem_cons_self ..)
      have hps := ih fun q hq => h q (List.mem_cons_of_mem p hq)
      by_cases hnil : ps = []
      · subst hnil
        rw [String.intercalate_singleton]
        exact hp
      · rw [String.intercalate_cons_of_ne_nil hnil, String.length_append, String.length_append,
          List.length_cons]
        omega
  rw [ofParts, String.length_append]
  omega

/-- A path has no more parts that count than characters. -/
theorem length_essential_le (s : String) : (essential s).length ≤ s.length := by
  have hparts := length_le_ofParts (isAbsolute s) (trim_essential s).nonempty
  have hsub := (ofParts_sublist (List.Sublist.refl (essential s))).length_le
  exact Nat.le_trans hparts hsub

end CollectionDelta.Path
