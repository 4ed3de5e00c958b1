import CollectionDelta.FileTree.Access
import CollectionDelta.Proofs.FileTree.Path
import Mathlib.Algebra.Group.Nat.Defs

/-!
File trees as they can be.

* `EntryName.Allowed`: what an entry of a directory can be called.
* `FileTree.WellFormed`: every entry lies in a directory, and its name is allowed there.
* `WellFormed.mem_iff`, `WellFormed.mem_below`: the entries of a tree, and those below a location,
  are the nodes that stand there.
* `WellFormed.directory_above`: whatever stands somewhere has only directories above it.
* `WellFormed.set_file`: what a file holds makes no difference.
* `Location.ofTexts`: locations of which all names are texts.
-/

namespace CollectionDelta

/-- A text is one part of a path, as short as the system asks for; bytes are a name of their own
only if they are no text. -/
def EntryName.Allowed : EntryName → Prop
  | .text s => Path.Plain s ∧ '\x00' ∉ s.toList ∧ s.utf8ByteSize ≤ FileTree.maxEntryName
  | .binary b => Bytes.text? b = none

instance : DecidablePred EntryName.Allowed
  | .text s => inferInstanceAs (Decidable (Path.Plain s ∧ _ ∧ _))
  | .binary b => inferInstanceAs (Decidable (Bytes.text? b = none))

/-- The number of bytes in a file. -/
def Node.size : Node → Nat
  | .file b => b.length
  | .directory => 0
  | .link _ => 0

namespace FileTree

/-- A tree in which every entry lies in a directory under an allowed name, once. The sizes of files
and the number of entries are those that a system can count. -/
structure WellFormed (t : FileTree) : Prop where
  nodup : (t.entries.map Prod.fst).Nodup
  not_root : ∀ e ∈ t.entries, e.1 ≠ []
  allowed : ∀ e ∈ t.entries, ∀ n ∈ e.1, n.Allowed
  parent : ∀ e ∈ t.entries, t.node? e.1.dropLast = some .directory
  current : t.node? t.current = some .directory
  size_lt : ∀ e ∈ t.entries, e.2.size < 2 ^ 64
  count_lt : t.entries.length < 2 ^ 63

instance (t : FileTree) : Decidable t.WellFormed :=
  decidable_of_iff ((t.entries.map Prod.fst).Nodup ∧ (∀ e ∈ t.entries, e.1 ≠ []) ∧
      (∀ e ∈ t.entries, ∀ n ∈ e.1, n.Allowed) ∧
      (∀ e ∈ t.entries, t.node? e.1.dropLast = some .directory) ∧
      t.node? t.current = some .directory ∧ (∀ e ∈ t.entries, e.2.size < 2 ^ 64) ∧
      t.entries.length < 2 ^ 63)
    ⟨fun ⟨h₁, h₂, h₃, h₄, h₅, h₆, h₇⟩ => ⟨h₁, h₂, h₃, h₄, h₅, h₆, h₇⟩,
      fun h => ⟨h.nodup, h.not_root, h.allowed, h.parent, h.current, h.size_lt, h.count_lt⟩⟩

variable {t : FileTree} {l way : Location} {n : Node}

theorem node?_root (t : FileTree) : t.node? [] = some .directory := if_pos rfl

theorem node?_of_ne (t : FileTree) (hl : l ≠ []) : t.node? l = t.entries.lookup l := if_neg hl

theorem mem_of_node? (hl : l ≠ []) (h : t.node? l = some n) : (l, n) ∈ t.entries := by
  rw [node?_of_ne t hl, List.lookup_eq_some_iff] at h
  obtain ⟨before, after, heq, -⟩ := h
  rw [heq]
  exact List.mem_append_right _ (List.mem_cons_self ..)

theorem mem_below_of_node? (hway : way ≠ []) (hn : t.node? (l ++ way) = some n) :
    (way, n) ∈ t.below l := by
  have hne : l ++ way ≠ [] := List.append_ne_nil_of_right_ne_nil l hway
  rw [below, List.mem_filterMap]
  exact ⟨_, mem_of_node? hne hn, by simp [hway]⟩

theorem node?_of_mem_below (h : (way, n) ∈ t.below l) :
    way ≠ [] ∧ ∃ n', t.node? (l ++ way) = some n' := by
  rw [below, List.mem_filterMap] at h
  obtain ⟨⟨l', n'⟩, he, heq⟩ := h
  simp only [Option.ite_none_right_eq_some, Option.some.injEq, Prod.mk.injEq] at heq
  obtain ⟨⟨hbelow, hne⟩, rfl, rfl⟩ := heq
  obtain ⟨way, rfl⟩ := List.isPrefixOf_iff_prefix.1 hbelow
  rw [List.drop_left]
  have hway : way ≠ [] := fun hnil => hne (by rw [hnil, List.append_nil])
  refine ⟨hway, Option.isSome_iff_exists.1 ?_⟩
  rw [node?_of_ne t (List.append_ne_nil_of_right_ne_nil l hway), List.lookup_isSome_iff]
  exact ⟨_, he, beq_self_eq_true _⟩

namespace WellFormed

theorem mem_iff (h : t.WellFormed) : (l, n) ∈ t.entries ↔ l ≠ [] ∧ t.node? l = some n := by
  constructor
  · intro hmem
    have hl : l ≠ [] := h.not_root _ hmem
    refine ⟨hl, ?_⟩
    rw [node?_of_ne t hl, List.lookup_eq_some_iff]
    obtain ⟨before, after, heq⟩ := List.append_of_mem hmem
    refine ⟨before, after, heq, fun e he => bne_iff_ne.2 ?_⟩
    have hnd := h.nodup
    rw [heq, List.map_append, List.nodup_append] at hnd
    exact (hnd.2.2 e.1 (List.mem_map_of_mem he) l (List.mem_cons_self ..)).symm
  · rintro ⟨hl, hn⟩
    exact mem_of_node? hl hn

theorem mem_below (h : t.WellFormed) :
    (way, n) ∈ t.below l ↔ way ≠ [] ∧ t.node? (l ++ way) = some n := by
  constructor
  · intro hmem
    rw [below, List.mem_filterMap] at hmem
    obtain ⟨e, he, heq⟩ := hmem
    obtain ⟨l', n'⟩ := e
    simp only [Option.ite_none_right_eq_some, Option.some.injEq, Prod.mk.injEq] at heq
    obtain ⟨⟨hbelow, hne⟩, rfl, rfl⟩ := heq
    obtain ⟨way, rfl⟩ := List.isPrefixOf_iff_prefix.1 hbelow
    rw [List.drop_left]
    refine ⟨fun hnil => hne ?_, (h.mem_iff.1 he).2⟩
    rw [hnil, List.append_nil]
  · rintro ⟨hway, hn⟩
    exact mem_below_of_node? hway hn

theorem directory_startOf (h : t.WellFormed) (path : String) :
    t.node? (t.startOf path) = some .directory := by
  unfold startOf
  split
  · exact node?_root t
  · exact h.current

theorem directory_of_append (h : t.WellFormed) {x : EntryName} (hn : t.node? (l ++ [x]) = some n) :
    t.node? l = some .directory := by
  have hmem := h.mem_iff.2 ⟨List.append_ne_nil_of_right_ne_nil l (List.cons_ne_nil x []), hn⟩
  have hparent := h.parent _ hmem
  rwa [List.dropLast_concat] at hparent

theorem directory_dropLast (h : t.WellFormed) (hl : t.node? l = some .directory) :
    t.node? l.dropLast = some .directory := by
  by_cases hnil : l = []
  · rw [hnil]
    exact node?_root t
  · exact h.parent _ (h.mem_iff.2 ⟨hnil, hl⟩)

theorem directory_above (h : t.WellFormed) (hway : way ≠ []) (hn : t.node? (l ++ way) = some n) :
    t.node? l = some .directory := by
  induction way generalizing l with
  | nil => exact absurd rfl hway
  | cons x way ih =>
    by_cases hnil : way = []
    · subst hnil
      exact h.directory_of_append hn
    · have hl : t.node? (l ++ [x]) = some .directory := by
        refine ih hnil ?_
        rwa [List.append_assoc]
      exact h.directory_of_append hl

theorem allowed_of_node? (h : t.WellFormed) (hn : t.node? l = some n) :
    ∀ x ∈ l, x.Allowed := by
  intro x hx
  have hl : l ≠ [] := List.ne_nil_of_mem hx
  exact h.allowed _ (h.mem_iff.2 ⟨hl, hn⟩) x hx

theorem file_size_lt (h : t.WellFormed) {b : Bytes} (hn : t.node? l = some (.file b)) :
    b.length < 2 ^ 64 := by
  by_cases hl : l = []
  · subst hl
    rw [node?_root] at hn
    cases hn
  · exact h.size_lt _ (h.mem_iff.2 ⟨hl, hn⟩)

/-- Of the content of a file, only the length counts. -/
theorem set_file {b b' : Bytes} (h : (t.set l (.file b)).WellFormed) (hb : b'.length < 2 ^ 64) :
    (t.set l (.file b')).WellFormed := by
  have hl : l ≠ [] := h.not_root (l, .file b) (List.mem_append_right _ (List.mem_singleton_self _))
  have hdirectory : ∀ x, (t.set l (.file b)).node? x = some .directory →
      (t.set l (.file b')).node? x = some .directory := by
    intro x hx
    rw [node?_set t hl] at hx ⊢
    split at hx
    · cases hx
    · next hne => rwa [if_neg hne]
  have hentry : ∀ e ∈ (t.set l (.file b')).entries,
      ∃ n, (e.1, n) ∈ (t.set l (.file b)).entries := by
    intro e he
    rcases List.mem_append.1 he with he | he
    · exact ⟨e.2, List.mem_append_left _ he⟩
    · cases List.mem_singleton.1 he
      exact ⟨.file b, List.mem_append_right _ (List.mem_singleton_self _)⟩
  refine ⟨?_, fun e he => ?_, fun e he => ?_, fun e he => ?_, hdirectory _ h.current,
    fun e he => ?_, ?_⟩
  · have hnodup := h.nodup
    simp only [set, List.map_append] at hnodup ⊢
    exact hnodup
  · obtain ⟨n, hn⟩ := hentry e he
    exact h.not_root (e.1, n) hn
  · obtain ⟨n, hn⟩ := hentry e he
    exact h.allowed (e.1, n) hn
  · obtain ⟨n, hn⟩ := hentry e he
    exact hdirectory _ (h.parent (e.1, n) hn)
  · rcases List.mem_append.1 he with he | he
    · exact h.size_lt _ (List.mem_append_left _ he)
    · cases List.mem_singleton.1 he
      exact hb
  · have hcount := h.count_lt
    simp only [set, List.length_append] at hcount ⊢
    exact hcount

end WellFormed
end FileTree

/-! ## Names that are texts -/

namespace Location

/-- The location of some texts. -/
def ofTexts (ts : List String) : Location := ts.map .text

theorem ofTexts_append (ts us : List String) : ofTexts (ts ++ us) = ofTexts ts ++ ofTexts us :=
  List.map_append

theorem ofTexts_prefix {ts us : List String} (h : ts <+: us) : ofTexts ts <+: ofTexts us := h.map _

theorem exists_of_prefix_ofTexts {way : Location} {us : List String} (h : way <+: ofTexts us) :
    ∃ ts, ts <+: us ∧ way = ofTexts ts := by
  obtain ⟨rest, hrest⟩ := h
  obtain ⟨ts, more, rfl, hts, -⟩ := List.map_eq_append_iff.1 hrest.symm
  exact ⟨ts, List.prefix_append ts more, hts.symm⟩

theorem ofTexts_injective {ts us : List String} (h : ofTexts ts = ofTexts us) : ts = us :=
  (List.map_inj_right fun _ _ => EntryName.text.inj).1 h

end Location
end CollectionDelta
