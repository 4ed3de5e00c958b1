import CollectionDelta.Collection.Basic
import CollectionDelta.Record

/-!
Repeated names, and the order of names.

* `FirstRepeat`: the name whose second occurrence in a list comes first; `nodup_or_firstRepeat` says
  that a list without one repeats no name.
* `Fresh`: records with names of their own, as seen after some others.
* `Ascending`: names in order and without repetition, as `ascending_mergeSort` makes them.
-/

namespace CollectionDelta

/-- No name before its second occurrence occurs twice. -/
def FirstRepeat (names : List String) (name : String) : Prop :=
  ∃ before after, names = before ++ name :: after ∧ before.Nodup ∧ name ∈ before

private theorem nodup_or_firstRepeat_append {seen : List String} (hseen : seen.Nodup)
    (names : List String) :
    (seen ++ names).Nodup ∨ ∃ name, FirstRepeat (seen ++ names) name := by
  induction names generalizing seen with
  | nil => exact .inl (by rwa [List.append_nil])
  | cons name names ih =>
    by_cases hmem : name ∈ seen
    · exact .inr ⟨name, seen, names, rfl, hseen, hmem⟩
    · have hnd : (seen ++ [name]).Nodup := by
        rw [List.nodup_append]
        refine ⟨hseen, by simp, ?_⟩
        rintro a ha b hb rfl
        exact hmem (List.mem_singleton.1 hb ▸ ha)
      have h := ih hnd
      rwa [List.append_assoc, List.singleton_append] at h

theorem nodup_or_firstRepeat (names : List String) :
    names.Nodup ∨ ∃ name, FirstRepeat names name :=
  nodup_or_firstRepeat_append List.nodup_nil names

theorem nodup_eraseDups (names : List String) : names.eraseDups.Nodup := by
  induction hlen : names.length using Nat.strongRecOn generalizing names with
  | _ k ih =>
    cases names with
    | nil => exact List.nodup_nil
    | cons name names =>
      have hshort : (names.filter fun n => !n == name).length < k := by
        have hle := List.length_filter_le (fun n => !n == name) names
        rw [List.length_cons] at hlen
        omega
      rw [List.eraseDups_cons, List.nodup_cons]
      exact ⟨by simp, ih _ hshort _ rfl⟩

theorem eraseDups_of_nodup {names : List String} (h : names.Nodup) : names.eraseDups = names := by
  induction names with
  | nil => rfl
  | cons name names ih =>
    obtain ⟨hname, hnames⟩ := List.nodup_cons.1 h
    have hothers : names.filter (fun n => !n == name) = names := by
      refine List.filter_eq_self.2 fun n hn => ?_
      have hne : n ≠ name := fun heq => hname (heq ▸ hn)
      simp [hne]
    rw [List.eraseDups_cons, hothers, ih hnames]

/-! ## Names of records -/

/-- No two of the records have one name, and none has a name of `seen`. -/
def Fresh (seen : List String) (xs : List Record) : Prop :=
  (xs.map Record.name).Nodup ∧ ∀ x ∈ xs, x.name ∉ seen

theorem fresh_cons {seen : List String} {x : Record} {xs : List Record} :
    Fresh seen (x :: xs) ↔ x.name ∉ seen ∧ Fresh (x.name :: seen) xs := by
  unfold Fresh
  rw [List.map_cons, List.nodup_cons]
  constructor
  · rintro ⟨⟨hx, hnd⟩, hseen⟩
    refine ⟨hseen x (List.mem_cons_self ..), hnd, fun y hy hmem => ?_⟩
    rcases List.mem_cons.1 hmem with heq | hmem
    · exact hx (heq ▸ List.mem_map_of_mem hy)
    · exact hseen y (List.mem_cons_of_mem _ hy) hmem
  · rintro ⟨hx, hnd, hseen⟩
    refine ⟨⟨fun hmem => ?_, hnd⟩, fun y hy => ?_⟩
    · obtain ⟨y, hy, heq⟩ := List.mem_map.1 hmem
      exact hseen y hy (heq ▸ List.mem_cons_self ..)
    · rcases List.mem_cons.1 hy with rfl | hy
      · exact hx
      · exact fun hmem => hseen y hy (List.mem_cons_of_mem _ hmem)

theorem fresh_of_nodup {xs : List Record} (h : (xs.map Record.name).Nodup) : Fresh [] xs :=
  ⟨h, fun _ _ => List.not_mem_nil⟩

/-! ## Order -/

def Ascending (names : List String) : Prop :=
  names.Pairwise fun a b => Bytes.ofText a < Bytes.ofText b

theorem Ascending.nodup {names : List String} (h : Ascending names) : names.Nodup := by
  refine h.imp ?_
  rintro a b hab rfl
  exact List.lt_irrefl _ hab

/-- Names in order are determined by which they are. -/
theorem Ascending.eq_of_mem_iff {names names' : List String} (h : Ascending names)
    (h' : Ascending names') (hmem : ∀ n, n ∈ names ↔ n ∈ names') : names = names' := by
  have hperm := (List.perm_ext_iff_of_nodup h.nodup h'.nodup).2 hmem
  refine hperm.eq_of_pairwise (fun a b _ _ hab hba => ?_) h h'
  exact absurd (List.lt_trans hab hba) (List.lt_irrefl _)

theorem ascending_mergeSort {names : List String} (h : names.Nodup) :
    Ascending (names.mergeSort Collection.nameLe) := by
  have hsorted : (names.mergeSort Collection.nameLe).Pairwise fun a b =>
      Collection.nameLe a b = true := by
    refine List.pairwise_mergeSort ?_ ?_ names
    · intro a b c hab hbc
      exact decide_eq_true (List.le_trans (of_decide_eq_true hab) (of_decide_eq_true hbc))
    · intro a b
      rw [Collection.nameLe, Collection.nameLe, Bool.or_eq_true, decide_eq_true_iff,
        decide_eq_true_iff]
      exact List.le_total _ _
  have hnodup : (names.mergeSort Collection.nameLe).Nodup := (List.mergeSort_perm _ _).nodup_iff.2 h
  refine (hsorted.and hnodup).imp ?_
  rintro a b ⟨hle, hne⟩
  refine Classical.byContradiction fun hlt => hne (Bytes.ofText_injective ?_)
  exact List.le_antisymm (of_decide_eq_true hle) (List.not_lt.1 hlt)

end CollectionDelta
