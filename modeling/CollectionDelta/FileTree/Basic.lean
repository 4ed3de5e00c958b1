import CollectionDelta.FileTree.Path

/-!
A tree of directories, regular files and symbolic links.

* `EntryName`, `Location`: the name of an entry, and the names on the way from the root to it.
* `Node`, `FileTree`: what stands at a location, for every location but the root.
* `FileTree.node?`, `FileTree.set`, `FileTree.remove`, `FileTree.below`, `FileTree.children`: look-up,
  change and listing.
* `node?_set`: a change at one location shows there and nowhere else.
-/

namespace CollectionDelta

/-- A name is text, or bytes that are no text. -/
inductive EntryName
  | text (name : String)
  | binary (bytes : Bytes)
  deriving DecidableEq, Repr

namespace EntryName

def ofBytes (b : Bytes) : EntryName :=
  match Bytes.text? b with
  | some s => .text s
  | none => .binary b

def bytes : EntryName → Bytes
  | text s => Bytes.ofText s
  | binary b => b

def text? : EntryName → Option String
  | text s => some s
  | binary _ => none

end EntryName

abbrev Location := List EntryName

inductive Node
  | directory
  | file (bytes : Bytes)
  | link (target : String)
  deriving DecidableEq, Repr

structure FileTree where
  entries : List (Location × Node) := []
  /-- The directory where relative paths start. -/
  current : Location := []
  deriving DecidableEq, Repr

namespace FileTree

/-- What stands at a location; the root is a directory. -/
def node? (t : FileTree) (l : Location) : Option Node :=
  if l = [] then some .directory else t.entries.lookup l

def set (t : FileTree) (l : Location) (n : Node) : FileTree :=
  { t with entries := t.entries.filter (fun e => e.1 ≠ l) ++ [(l, n)] }

/-- Takes away a location and everything below it. -/
def remove (t : FileTree) (l : Location) : FileTree :=
  { t with entries := t.entries.filter fun e => !l.isPrefixOf e.1 }

/-- Everything below a location, by the way from there. -/
def below (t : FileTree) (l : Location) : List (Location × Node) :=
  t.entries.filterMap fun e =>
    if l.isPrefixOf e.1 ∧ e.1 ≠ l then some (e.1.drop l.length, e.2) else none

/-- What is in a directory, by the name of each entry. -/
def children (t : FileTree) (l : Location) : List (EntryName × Node) :=
  t.entries.filterMap fun e =>
    match e.1.getLast? with
    | some name => if e.1.dropLast = l then some (name, e.2) else none
    | none => none

private theorem lookup_cons_pair (es : List (Location × Node)) (l l' : Location) (n : Node) :
    List.lookup l' ((l, n) :: es) = if l' = l then some n else es.lookup l' := by
  by_cases h : l' = l
  · subst h; simp
  · simp [List.lookup_cons, beq_eq_false_iff_ne.2 h, h]

private theorem lookup_filter_ne (es : List (Location × Node)) (l l' : Location) (h : l' ≠ l) :
    (es.filter fun e => e.1 ≠ l).lookup l' = es.lookup l' := by
  induction es with
  | nil => rfl
  | cons e es ih =>
    obtain ⟨a, m⟩ := e
    by_cases ha : a = l
    · subst ha
      rw [List.filter_cons_of_neg (by simp), ih, lookup_cons_pair, if_neg h]
    · rw [List.filter_cons_of_pos (by simpa using ha), lookup_cons_pair, lookup_cons_pair, ih]

private theorem lookup_filter_self (es : List (Location × Node)) (l : Location) :
    (es.filter fun e => e.1 ≠ l).lookup l = none := by
  induction es with
  | nil => rfl
  | cons e es ih =>
    obtain ⟨a, m⟩ := e
    by_cases ha : a = l
    · rw [List.filter_cons_of_neg (by simpa using ha), ih]
    · rw [List.filter_cons_of_pos (by simpa using ha), lookup_cons_pair, if_neg (Ne.symm ha), ih]

private theorem lookup_append_single (es : List (Location × Node)) (l l' : Location) (n : Node) :
    (es ++ [(l, n)]).lookup l' = (es.lookup l').or (if l' = l then some n else none) := by
  induction es with
  | nil => rw [List.nil_append, lookup_cons_pair]; rfl
  | cons e es ih =>
    obtain ⟨a, m⟩ := e
    rw [List.cons_append, lookup_cons_pair, lookup_cons_pair, ih]
    split <;> rfl

theorem node?_set (t : FileTree) {l : Location} (hl : l ≠ []) (l' : Location) (n : Node) :
    (t.set l n).node? l' = if l' = l then some n else t.node? l' := by
  unfold node? set
  by_cases h0 : l' = []
  · subst h0; simp [Ne.symm hl]
  · rw [if_neg h0, if_neg h0, lookup_append_single]
    by_cases h : l' = l
    · subst h; rw [lookup_filter_self, if_pos rfl, if_pos rfl]; rfl
    · rw [lookup_filter_ne _ _ _ h, if_neg h, if_neg h, Option.or_none]

end FileTree
end CollectionDelta
