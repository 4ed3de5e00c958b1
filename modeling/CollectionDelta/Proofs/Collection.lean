import CollectionDelta.Collection.Memory
import CollectionDelta.Proofs.Stream.Delivery

/-!
Collections in which nothing fails.

* `Collection.Faithful`: every listed name can be read and streamed, with the same bytes.
* `Memory.faithful_toCollection`: a collection in memory is one of them until it is closed.
* `Memory.toList_ofList`, `Memory.faithful_ofList`: distinct names keep the bytes they are given.
-/

namespace CollectionDelta

/-- No call fails, and a listed resource has one content whichever way it is read, in whatever
pieces its stream comes. -/
structure Collection.Faithful (c : Collection) (listing : List String)
    (content : String → Bytes) : Prop where
  names_eq : c.names = .ok listing
  read_eq : ∀ n ∈ listing, c.read n = .ok (content n)
  stream_holds : ∀ n ∈ listing, ∃ s k, c.stream n = .ok s ∧ s.Holds k (content n) .ended
  close_eq : c.close = .ok ()

theorem Collection.Faithful.congr {c : Collection} {listing : List String}
    {content content' : String → Bytes} (h : c.Faithful listing content)
    (heq : ∀ n ∈ listing, content n = content' n) : c.Faithful listing content' where
  names_eq := h.names_eq
  read_eq n hn := heq n hn ▸ h.read_eq n hn
  stream_holds n hn := heq n hn ▸ h.stream_holds n hn
  close_eq := h.close_eq

namespace Memory

theorem lookup_eq_of_mem {m : Memory} {name : String} (h : name ∈ m.names) :
    m.lookup name = .ok ((m.get? name).getD []) := by
  have hsome : (m.get? name).isSome := by
    rw [names, List.mem_reverse, List.mem_map] at h
    obtain ⟨⟨n, b⟩, hmem, rfl⟩ := h
    rw [get?, List.lookup_isSome_iff]
    exact ⟨(n, b), hmem, beq_self_eq_true n⟩
  obtain ⟨b, hb⟩ := Option.isSome_iff_exists.1 hsome
  rw [lookup, hb]
  rfl

theorem faithful_toCollection {m : Memory} (h : m.closed = false) :
    m.toCollection.Faithful m.names fun n => (m.get? n).getD [] where
  names_eq := by simp [toCollection, guarded, h]
  read_eq n hn := by simp [toCollection, guarded, h, lookup_eq_of_mem hn]
  stream_holds n hn := by
    refine ⟨_, 0, ?_, Stream.holds_ofBytes _⟩
    simp [toCollection, guarded, h, lookup_eq_of_mem hn, Except.map]
  close_eq := rfl

/-! ## Entries -/

theorem pushes_ofList (entries : List (String × Bytes)) :
    (ofList entries).pushes = entries.reverse ∧ (ofList entries).closed = false := by
  have hfold : ∀ m : Memory, (entries.foldl (fun m e => m.push e.1 e.2) m).pushes =
      entries.reverse ++ m.pushes ∧
      (entries.foldl (fun m e => m.push e.1 e.2) m).closed = m.closed := by
    induction entries with
    | nil => exact fun m => ⟨rfl, rfl⟩
    | cons e entries ih =>
      intro m
      obtain ⟨hpushes, hclosed⟩ := ih (m.push e.1 e.2)
      rw [List.foldl_cons, hpushes, hclosed]
      simp [push]
  have h := hfold {}
  rwa [List.append_nil] at h

theorem names_ofList (entries : List (String × Bytes)) :
    (ofList entries).names = entries.map Prod.fst := by
  rw [names, (pushes_ofList entries).1, List.map_reverse, List.reverse_reverse]

theorem get?_ofList {entries : List (String × Bytes)} (hnd : (entries.map Prod.fst).Nodup)
    {e : String × Bytes} (he : e ∈ entries) : (ofList entries).get? e.1 = some e.2 := by
  obtain ⟨before, after, rfl⟩ := List.append_of_mem he
  rw [List.map_append, List.map_cons, List.nodup_append, List.nodup_cons] at hnd
  rw [get?, (pushes_ofList _).1, List.lookup_eq_some_iff]
  refine ⟨after.reverse, before.reverse, by simp, ?_⟩
  intro later hlater
  have hne : e.1 ≠ later.1 := by
    intro heq
    exact hnd.2.1.1 (heq ▸ List.mem_map_of_mem (List.mem_reverse.1 hlater))
  exact bne_iff_ne.2 hne

theorem toList_ofList {entries : List (String × Bytes)} (hnd : (entries.map Prod.fst).Nodup) :
    (ofList entries).toList = entries := by
  rw [toList, names_ofList, List.map_map]
  calc entries.map ((fun n => (n, ((ofList entries).get? n).getD [])) ∘ Prod.fst)
      = entries.map id := by
        refine List.map_congr_left fun e he => ?_
        rw [Function.comp_apply, get?_ofList hnd he]
        rfl
    _ = entries := List.map_id _

/-- Names of which each is pushed once are listed in that order, with the bytes of the push. -/
theorem faithful_ofList {listing : List String} (hnd : listing.Nodup) (content : String → Bytes) :
    (ofList (listing.map fun n => (n, content n))).toCollection.Faithful listing content := by
  have hnames : (listing.map fun n => (n, content n)).map Prod.fst = listing := by
    rw [List.map_map]
    exact List.map_id _
  have hf := faithful_toCollection (pushes_ofList (listing.map fun n => (n, content n))).2
  rw [names_ofList, hnames] at hf
  refine hf.congr fun n hn => ?_
  have hmem : (n, content n) ∈ listing.map fun n => (n, content n) := List.mem_map_of_mem hn
  have hget := get?_ofList (hnames.symm ▸ hnd) hmem
  rw [hget]
  rfl

end Memory
end CollectionDelta
