import CollectionDelta.Proofs.Collection
import Mathlib.Data.Finmap

/-!
What a collection in memory answers, told from the operations that came before.

* `Memory.Operation`, `Memory.Reply`, `Memory.answers`: calls one after another, and their answers.
* `Memory.pushed`, `Memory.LastPush`: the names that calls have pushed, and with which bytes a name
  was pushed last.
* `Memory.LookedUp`, `Memory.Due`: the answer that is due to a call after other calls;
  `Memory.Answered` says it of all calls of a run.
* `Memory.Recalls`: a collection holds what the calls so far have made of it; `recalls_after` says
  that each call keeps it so, and `Recalls.due` that the answers are then right.
* `Catalogue`: a listing, and a table of contents kept apart from it; `Catalogue.keeps_after` and
  `Catalogue.Keeps.answer_eq` say that the two stay in step, and answer like a collection in memory.
* `Memory.answered_from_history`: all answers of every run.
-/

namespace CollectionDelta
namespace Memory

/-! ## Operations -/

inductive Operation
  | push (name : String) (bytes : Bytes)
  | get (name : String)
  | size
  | names
  | read (name : String)
  | stream (name : String)
  | entries
  | close
  deriving DecidableEq

inductive Reply
  | pushed
  | found (content : Option Bytes)
  | counted (n : Nat)
  | listed (names : Except Fault (List String))
  | content (bytes : Except Fault Bytes)
  | opened (stream : Except Fault Stream)
  | entries (pairs : List (String × Bytes))
  | closed (outcome : Except Fault Unit)
  deriving DecidableEq

def answer (m : Memory) : Operation → Reply
  | .push _ _ => .pushed
  | .get n => .found (m.get? n)
  | .size => .counted m.size
  | .names => .listed m.toCollection.names
  | .read n => .content (m.toCollection.read n)
  | .stream n => .opened (m.toCollection.stream n)
  | .entries => .entries m.toList
  | .close => .closed m.toCollection.close

def after (m : Memory) : Operation → Memory
  | .push n b => m.push n b
  | .close => m.close
  | _ => m

def answers (m : Memory) : List Operation → List Reply
  | [] => []
  | c :: cs => m.answer c :: (m.after c).answers cs

/-! ## Histories -/

/-- The pushed names, in order and with repetitions. -/
def pushed (before : List Operation) : List String :=
  before.filterMap fun
    | .push n _ => some n
    | _ => none

def LastPush (before : List Operation) (n : String) (b : Bytes) : Prop :=
  ∃ earlier later, before = earlier ++ .push n b :: later ∧ n ∉ pushed later

/-- What a look-up gives after calls: the bytes of the last push, as long as the collection is open.
A failure is known by its kind. -/
inductive LookedUp (before : List Operation) (n : String) : Except Fault Bytes → Prop
  | known {b : Bytes} (hopen : .close ∉ before) (h : LastPush before n b) :
      LookedUp before n (.ok b)
  | unknown {f : Fault} (hopen : .close ∉ before) (h : n ∉ pushed before)
      (hf : f.kind = .notFound) : LookedUp before n (.error f)
  | closed {f : Fault} (hclosed : .close ∈ before) (hf : f.kind = .other) :
      LookedUp before n (.error f)

/-- The answer to a call after others. A stream is known by what it holds. -/
inductive Due (before : List Operation) : Operation → Reply → Prop
  | push {n : String} {b : Bytes} : Due before (.push n b) .pushed
  | get {n : String} {b : Bytes} (h : LastPush before n b) : Due before (.get n) (.found (some b))
  | getUnknown {n : String} (h : n ∉ pushed before) : Due before (.get n) (.found none)
  | size : Due before .size (.counted (pushed before).length)
  | entries {pairs : List (String × Bytes)} (hnames : pairs.map Prod.fst = pushed before)
      (hbytes : ∀ e ∈ pairs, LastPush before e.1 e.2) : Due before .entries (.entries pairs)
  | names (hopen : .close ∉ before) : Due before .names (.listed (.ok (pushed before)))
  | namesClosed {f : Fault} (hclosed : .close ∈ before) (hf : f.kind = .other) :
      Due before .names (.listed (.error f))
  | read {n : String} {r : Except Fault Bytes} (h : LookedUp before n r) :
      Due before (.read n) (.content r)
  | stream {n : String} {b : Bytes} {s : Stream} (h : LookedUp before n (.ok b))
      (hs : s.Holds 0 b .ended) : Due before (.stream n) (.opened (.ok s))
  | streamFails {n : String} {f : Fault} (h : LookedUp before n (.error f)) :
      Due before (.stream n) (.opened (.error f))
  | close : Due before .close (.closed (.ok ()))

/-- Each call of a run is answered as the calls before it demand. -/
inductive Answered : List Operation → List Operation → List Reply → Prop
  | nil {before : List Operation} : Answered before [] []
  | cons {before cs : List Operation} {c : Operation} {a : Reply} {as : List Reply}
      (h : Due before c a) (hs : Answered (before ++ [c]) cs as) :
      Answered before (c :: cs) (a :: as)

variable {before : List Operation} {m : Memory} {n : String} {b : Bytes} {c : Operation}

theorem pushed_concat : pushed (before ++ [c]) = pushed before ++ pushed [c] :=
  List.filterMap_append

/-- The last push is the operation just made, or one before it that has not been overtaken by it. -/
theorem lastPush_concat : LastPush (before ++ [c]) n b ↔
    c = .push n b ∨ (n ∉ pushed [c] ∧ LastPush before n b) := by
  constructor
  · rintro ⟨earlier, later, heq, hlater⟩
    rcases later.eq_nil_or_concat with rfl | ⟨later, d, rfl⟩
    · exact .inl (List.singleton_inj.1 (List.append_inj' heq rfl).2)
    · rw [List.concat_eq_append, ← List.cons_append, ← List.append_assoc] at heq
      obtain ⟨rfl, hd⟩ := List.append_inj' heq rfl
      cases List.singleton_inj.1 hd
      rw [List.concat_eq_append, pushed_concat, List.mem_append, not_or] at hlater
      exact .inr ⟨hlater.2, earlier, later, rfl, hlater.1⟩
  · rintro (rfl | ⟨hc, earlier, later, rfl, hlater⟩)
    · exact ⟨before, [], rfl, by simp [pushed]⟩
    · refine ⟨earlier, later ++ [c], by simp, ?_⟩
      rw [pushed_concat, List.mem_append, not_or]
      exact ⟨hlater, hc⟩

/-! ## Runs -/

theorem get?_eq_none_iff : m.get? n = none ↔ n ∉ m.names := by
  rw [get?, List.lookup_eq_none_iff, names, List.mem_reverse, List.mem_map]
  simp only [bne_iff_ne, not_exists, not_and]
  exact ⟨fun h e he heq => h e he heq.symm, fun h e he heq => h e he heq.symm⟩

theorem size_eq (m : Memory) : m.size = m.names.length := by simp [size, names]

/-- The collection holds what the calls have made of an empty one. -/
structure Recalls (before : List Operation) (m : Memory) : Prop where
  names_eq : m.names = pushed before
  get?_iff : ∀ n b, m.get? n = some b ↔ LastPush before n b
  closed_iff : m.closed = true ↔ .close ∈ before

theorem recalls_nil : Recalls [] {} where
  names_eq := rfl
  get?_iff n b := by
    refine ⟨nofun, ?_⟩
    rintro ⟨earlier, later, heq, -⟩
    simp at heq
  closed_iff := by simp

theorem names_after (m : Memory) (c : Operation) : (m.after c).names = m.names ++ pushed [c] := by
  cases c with
  | push n b => exact names_push m n b
  | close => exact (List.append_nil _).symm
  | _ => exact (List.append_nil _).symm

theorem get?_after (m : Memory) (c : Operation) : (m.after c).get? n = some b ↔
    c = .push n b ∨ (n ∉ pushed [c] ∧ m.get? n = some b) := by
  cases c with
  | push n' b' =>
    rw [after, get?_push]
    by_cases hn : n = n'
    · subst hn
      simp [pushed]
    · simp [pushed, hn, Ne.symm hn]
  | close => simp [after, close, pushed, get?]
  | _ => simp [after, pushed]

theorem closed_after (m : Memory) (c : Operation) :
    (m.after c).closed = true ↔ m.closed = true ∨ .close = c := by
  cases c <;> simp [after, push, close]

theorem recalls_after (h : Recalls before m) (c : Operation) :
    Recalls (before ++ [c]) (m.after c) where
  names_eq := by rw [names_after, pushed_concat, h.names_eq]
  get?_iff n b := by rw [get?_after, lastPush_concat, h.get?_iff]
  closed_iff := by rw [closed_after, h.closed_iff, List.mem_append, List.mem_singleton]

theorem Recalls.lastPush_or (h : Recalls before m) (n : String) :
    (∃ b, m.get? n = some b ∧ LastPush before n b) ∨ (m.get? n = none ∧ n ∉ pushed before) := by
  cases hget : m.get? n with
  | some b => exact .inl ⟨b, rfl, (h.get?_iff n b).1 hget⟩
  | none => exact .inr ⟨rfl, h.names_eq ▸ get?_eq_none_iff.1 hget⟩

theorem Recalls.opened_or (h : Recalls before m) :
    (.close ∉ before ∧ ∀ {α : Type} (r : Except Fault α), m.guarded r = r) ∨
      (.close ∈ before ∧ ∀ {α : Type} (r : Except Fault α), m.guarded r = .error closedFault) := by
  by_cases hclosed : m.closed = true
  · exact .inr ⟨h.closed_iff.1 hclosed, fun r => if_pos hclosed⟩
  · exact .inl ⟨fun hmem => hclosed (h.closed_iff.2 hmem), fun r => if_neg hclosed⟩

theorem Recalls.due_entries (h : Recalls before m) : Due before .entries (.entries m.toList) := by
  refine .entries ?_ fun e he => ?_
  · rw [toList, List.map_map, ← h.names_eq]
    exact List.map_id _
  · obtain ⟨n, hn, rfl⟩ := List.mem_map.1 he
    rcases h.lastPush_or n with ⟨b, hget, hlast⟩ | ⟨hget, -⟩
    · rwa [hget]
    · exact absurd hn (get?_eq_none_iff.1 hget)

theorem Recalls.lookedUp (h : Recalls before m) (n : String) :
    LookedUp before n (m.guarded (m.lookup n)) := by
  rcases h.opened_or with ⟨hopen, hguard⟩ | ⟨hclosed, hguard⟩
  · rw [hguard, lookup]
    rcases h.lastPush_or n with ⟨b, hget, hlast⟩ | ⟨hget, hunknown⟩
    · rw [hget]
      exact .known hopen hlast
    · rw [hget]
      exact .unknown hopen hunknown rfl
  · rw [hguard]
    exact .closed hclosed rfl

theorem map_guarded {α β : Type} (f : α → β) (r : Except Fault α) :
    (m.guarded r).map f = m.guarded (r.map f) := by
  rw [guarded, guarded]
  split <;> rfl

theorem stream_eq (m : Memory) (n : String) :
    m.toCollection.stream n = (m.toCollection.read n).map .ofBytes := (map_guarded _ _).symm

theorem Recalls.due (h : Recalls before m) (c : Operation) : Due before c (m.answer c) := by
  cases c with
  | push n b => exact .push
  | close => exact .close
  | entries => exact h.due_entries
  | read n => exact .read (h.lookedUp n)
  | size =>
    rw [answer, size_eq, h.names_eq]
    exact .size
  | get n =>
    rw [answer]
    rcases h.lastPush_or n with ⟨b, hget, hlast⟩ | ⟨hget, hunknown⟩
    · rw [hget]
      exact .get hlast
    · rw [hget]
      exact .getUnknown hunknown
  | names =>
    change Due before .names (.listed (m.guarded (.ok m.names)))
    rcases h.opened_or with ⟨hopen, hguard⟩ | ⟨hclosed, hguard⟩
    · rw [hguard, h.names_eq]
      exact .names hopen
    · rw [hguard]
      exact .namesClosed hclosed rfl
  | stream n =>
    have hread : LookedUp before n (m.toCollection.read n) := h.lookedUp n
    rw [answer, stream_eq]
    cases hr : m.toCollection.read n with
    | ok b => exact .stream (hr ▸ hread) (Stream.holds_ofBytes b)
    | error f => exact .streamFails (hr ▸ hread)

theorem Recalls.answered (h : Recalls before m) (cs : List Operation) :
    Answered before cs (m.answers cs) := by
  induction cs generalizing before m with
  | nil => exact .nil
  | cons c cs ih => exact .cons (h.due c) (ih (recalls_after h c))

end Memory

/-! ## Names and contents apart -/

/-- The listing of a collection, and beside it a table with one content for each name. -/
structure Catalogue where
  listing : List String := []
  content : Finmap (fun _ : String => Bytes) := ∅
  closed : Bool := false

namespace Catalogue
open Memory

def lookup (t : Catalogue) (n : String) : Except Fault Bytes :=
  if t.closed then .error closedFault else
  match t.content.lookup n with
  | some b => .ok b
  | none => .error (missingFault n)

def answer (t : Catalogue) : Operation → Reply
  | .push _ _ => .pushed
  | .get n => .found (t.content.lookup n)
  | .size => .counted t.listing.length
  | .names => .listed (if t.closed then .error closedFault else .ok t.listing)
  | .read n => .content (t.lookup n)
  | .stream n => .opened ((t.lookup n).map .ofBytes)
  | .entries => .entries (t.listing.filterMap fun n => (t.content.lookup n).map fun b => (n, b))
  | .close => .closed (.ok ())

def after (t : Catalogue) : Operation → Catalogue
  | .push n b => { t with listing := t.listing ++ [n], content := t.content.insert n b }
  | .close => { t with closed := true }
  | _ => t

def answers (t : Catalogue) : List Operation → List Reply
  | [] => []
  | c :: cs => t.answer c :: (t.after c).answers cs

structure Keeps (t : Catalogue) (m : Memory) : Prop where
  listing_eq : t.listing = m.names
  lookup_eq : ∀ n, t.content.lookup n = m.get? n
  closed_eq : t.closed = m.closed

variable {t : Catalogue} {m : Memory}

theorem keeps_after (h : t.Keeps m) (c : Operation) : (t.after c).Keeps (m.after c) := by
  cases c with
  | push n b =>
    refine ⟨?_, fun n' => ?_, h.closed_eq⟩
    · rw [Memory.after, names_push, ← h.listing_eq]
      rfl
    · rw [Memory.after, get?_push, ← h.lookup_eq, after]
      by_cases hn : n' = n
      · subst hn
        rw [if_pos rfl, Finmap.lookup_insert]
      · rw [if_neg hn, Finmap.lookup_insert_of_ne _ hn]
  | close => exact ⟨h.listing_eq, h.lookup_eq, rfl⟩
  | _ => exact h

theorem Keeps.read_eq (h : t.Keeps m) (n : String) : t.lookup n = m.toCollection.read n := by
  change _ = m.guarded (m.lookup n)
  cases hget : m.get? n with
  | none => simp only [lookup, guarded, Memory.lookup, h.closed_eq, h.lookup_eq, hget]
  | some b => simp only [lookup, guarded, Memory.lookup, h.closed_eq, h.lookup_eq, hget]

/-- No listed name is left out, since each has a content. -/
theorem Keeps.entries_eq (h : t.Keeps m) :
    (t.listing.filterMap fun n => (t.content.lookup n).map fun b => (n, b)) = m.toList := by
  rw [toList, h.listing_eq, ← List.filterMap_eq_map]
  refine List.filterMap_congr fun n hn => ?_
  rw [h.lookup_eq]
  cases hget : m.get? n with
  | none => exact absurd hn (get?_eq_none_iff.1 hget)
  | some b => simp [hget]

theorem Keeps.mem_listing_iff (h : t.Keeps m) (n : String) : n ∈ t.listing ↔ n ∈ t.content := by
  rw [← Finmap.lookup_isSome, h.lookup_eq, h.listing_eq, ← not_iff_not, ← get?_eq_none_iff]
  simp

theorem Keeps.answer_eq (h : t.Keeps m) (c : Operation) : t.answer c = m.answer c := by
  cases c with
  | push n b => rfl
  | close => rfl
  | get n => exact congrArg Reply.found (h.lookup_eq n)
  | size => rw [answer, h.listing_eq, ← size_eq, Memory.answer]
  | names =>
    rw [answer, h.closed_eq, h.listing_eq]
    rfl
  | read n => rw [answer, h.read_eq, Memory.answer]
  | stream n => rw [answer, h.read_eq, ← stream_eq, Memory.answer]
  | entries => rw [answer, h.entries_eq, Memory.answer]

theorem Keeps.answers_eq (h : t.Keeps m) (cs : List Operation) : t.answers cs = m.answers cs := by
  induction cs generalizing t m with
  | nil => rfl
  | cons c cs ih => rw [answers, Memory.answers, h.answer_eq, ih (keeps_after h c)]

theorem keeps_foldl (h : t.Keeps m) (cs : List Operation) :
    (cs.foldl after t).Keeps (cs.foldl Memory.after m) := by
  induction cs generalizing t m with
  | nil => exact h
  | cons c cs ih => exact ih (keeps_after h c)

theorem keeps_empty : Keeps {} {} := ⟨rfl, fun _ => rfl, rfl⟩

end Catalogue

namespace Memory

/-- In every run from the empty collection each call is answered as the calls before it demand:
until the first `close` the listing is what was pushed, and a listed name has the bytes of its last
push, while another is unknown; after it listing and look-ups fail, and the rest goes on as before.
A listing with a table of contents beside it answers alike, and the two never name different
resources. -/
theorem answered_from_history (cs : List Operation) :
    Answered [] cs (({} : Memory).answers cs) ∧
      ({} : Catalogue).answers cs = ({} : Memory).answers cs ∧
      ∀ n, n ∈ (cs.foldl Catalogue.after {}).listing ↔ n ∈ (cs.foldl Catalogue.after {}).content :=
  ⟨recalls_nil.answered cs, Catalogue.keeps_empty.answers_eq cs,
    (Catalogue.keeps_foldl Catalogue.keeps_empty cs).mem_listing_iff⟩

example : ({} : Memory).answers [.push "b" [1], .push "a" [2], .push "b" [3], .names, .read "b",
      .entries, .close, .push "c" [4], .names, .read "b", .get "c", .size] =
    [.pushed, .pushed, .pushed, .listed (.ok ["b", "a", "b"]), .content (.ok [3]),
      .entries [("b", [3]), ("a", [2]), ("b", [3])], .closed (.ok ()), .pushed,
      .listed (.error closedFault), .content (.error closedFault), .found (some [4]),
      .counted 4] := by
  decide +kernel

end Memory
end CollectionDelta
