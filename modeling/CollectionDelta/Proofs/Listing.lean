import CollectionDelta.Program
import CollectionDelta.Proofs.Format.Truncation
import Mathlib.Data.List.TakeWhile

/-!
Looking at a diff file.

* `Reader.Stops`: what a reader meets after the records it has handed out: the end of the data, data
  that go on, a record that is refused, or a name that came before.
* `Decoded`: the records of a stream up to there; `readRecords_of_decoded` is what the reading of
  the whole stream makes of them, and `Listing.ofStream_decoded` says that a listing holds them.
* `Listing.recordLine_inj`: the line of a record tells its kind, its name and its number of bytes.
* `Program.list_agrees`: the command that lists a file succeeds if and only if the file is read,
  then shows exactly its records, and else exactly those before the first obstacle.
-/

namespace CollectionDelta

/-! ## Records up to an obstacle -/

namespace Reader

/-- What a reader meets that has handed out records of the names `earlier`. -/
inductive Stops (earlier : List String) (r : Reader) : Except FormatError Unit → Prop
  | ended (hr : r.remaining = 0) : Stops earlier r (expectEnd r.stream).1
  | refused {r' : Reader} {e : FormatError} (h : r.next = (.error e, r')) :
      Stops earlier r (.error e)
  | repeated {r' : Reader} {x : Record} (h : r.next = (.ok (some x), r')) (hx : x.name ∈ earlier) :
      Stops earlier r (.error (.invalid (.duplicateRecord x.name)))

variable {r r' : Reader} {xs : List Record} {seen : List String} {a : Except FormatError Unit}

/-- The names of `seen`, and those of the records after them. -/
def namesAfter (seen : List String) (xs : List Record) : List String :=
  (xs.map Record.name).reverse ++ seen

theorem namesAfter_cons (x : Record) :
    namesAfter seen (x :: xs) = namesAfter (x.name :: seen) xs := by
  simp [namesAfter]

theorem mem_namesAfter_nil (n : String) : n ∈ namesAfter [] xs ↔ n ∈ xs.map Record.name := by
  rw [namesAfter, List.append_nil, List.mem_reverse]

theorem Stops.congr {seen' : List String} (hmem : ∀ n, n ∈ seen ↔ n ∈ seen')
    (h : r.Stops seen a) : r.Stops seen' a := by
  cases h with
  | ended hr => exact .ended hr
  | refused h => exact .refused h
  | repeated h hx => exact .repeated h ((hmem _).1 hx)

theorem distinctRecords_fst {x : Record} (h : r.next = (.ok (some x), r')) (hx : x.name ∉ seen) :
    (r.distinctRecords seen).1 = (r'.distinctRecords (x.name :: seen)).1.map (x :: ·) := by
  rw [distinctRecords_next h, if_neg hx]
  rcases r'.distinctRecords (x.name :: seen) with ⟨e | more, r''⟩
  · rfl
  · rfl

/-- Records with names of their own are kept, whatever the others lead to. -/
theorem Yields.distinctRecords (h : r.Yields xs r') (hfresh : Fresh seen xs) :
    (r.distinctRecords seen).1 =
      (r'.distinctRecords (namesAfter seen xs)).1.map (xs ++ ·) := by
  induction h generalizing seen with
  | @nil r =>
    change (r.distinctRecords seen).1 = (r.distinctRecords seen).1.map fun more => more
    cases (r.distinctRecords seen).1 with
    | error e => rfl
    | ok more => rfl
  | @cons r r₁ r' x xs hnext _ ih =>
    obtain ⟨hx, hfresh⟩ := fresh_cons.1 hfresh
    rw [distinctRecords_fst hnext hx, ih hfresh, namesAfter_cons]
    cases (r'.distinctRecords (namesAfter (x.name :: seen) xs)).1 with
    | error e => rfl
    | ok more => rfl

end Reader

/-- The records of a stream that are decoded one after another, each under a name of its own, up to
what `a` says: the end of the data, or the error of the head, of the record that follows them, of a
name that came before, or of data that go on. -/
inductive Decoded (o : ReadOptions) (s : Stream) : List Record → Except FormatError Unit → Prop
  | head {e : FormatError} (h : (Reader.start o s).1 = .error e) : Decoded o s [] (.error e)
  | records {r r' : Reader} {xs : List Record} {a : Except FormatError Unit}
      (h : (Reader.start o s).1 = .ok r) (hy : r.Yields xs r') (hfresh : Fresh [] xs)
      (hs : r'.Stops (xs.map Record.name) a) : Decoded o s xs a

theorem readRecords_of_refused {o : ReadOptions} {s t : Stream} {r : Reader} {e : FormatError}
    (h : Reader.start o s = (.ok r, t)) (hr : (r.distinctRecords []).1 = .error e) :
    (readRecords o s).1 = .error e := by
  rw [readRecords, h]
  cases hrecords : r.distinctRecords [] with
  | mk answer r' =>
    rw [hrecords] at hr
    obtain rfl : answer = .error e := hr
    simp only [hrecords]

/-- The whole stream is read if and only if the records go up to the end, and then as these. -/
theorem readRecords_of_decoded {o : ReadOptions} {s : Stream} {xs : List Record}
    {a : Except FormatError Unit} (h : Decoded o s xs a) :
    (readRecords o s).1 = a.map fun _ => xs := by
  rcases hstart : Reader.start o s with ⟨answer, t⟩
  cases h with
  | @head e h =>
    rw [hstart] at h
    obtain rfl : answer = .error e := h
    rw [readRecords, hstart]
    rfl
  | @records r r' _ _ h hy hfresh hs =>
    rw [hstart] at h
    obtain rfl : answer = .ok r := h
    have hrest := hy.distinctRecords hfresh
    cases hs.congr fun n => (Reader.mem_namesAfter_nil n).symm with
    | ended hr =>
      rw [readRecords, hstart]
      simp only [Reader.distinctRecords_complete hy hr hfresh, Reader.finish_done hr]
      rcases Reader.expectEnd r'.stream with ⟨e | _, t'⟩
      · rfl
      · rfl
    | refused hnext =>
      rw [Reader.distinctRecords_error hnext] at hrest
      exact readRecords_of_refused hstart hrest
    | repeated hnext hx =>
      rw [Reader.distinctRecords_next hnext, if_pos hx] at hrest
      exact readRecords_of_refused hstart hrest

/-! ## Listings -/

/-- What stands in the way, as a reader of the file says it. -/
def Obstacle.error : Obstacle → FileError
  | .notOpened _ fault => .io fault
  | .head e => .format e
  | .repeated name => .format (.invalid (.duplicateRecord name))
  | .record _ e => .format e
  | .finish e => .format e

namespace Listing

/-- A listing without an obstacle is complete. -/
def verdict : Option Obstacle → Except FileError Unit
  | none => .ok ()
  | some obstacle => .error obstacle.error

theorem collect_stops (seen : List String) (r : Reader) : ∃ r' a,
    r.Yields (collect seen r).1 r' ∧ Fresh seen (collect seen r).1 ∧
      r'.Stops (Reader.namesAfter seen (collect seen r).1) a ∧
      verdict (collect seen r).2 = a.mapError .format := by
  fun_induction collect seen r with
  | case1 seen r r' hnext =>
    obtain ⟨hr, rfl⟩ := Reader.next_eq_none_iff.1 hnext
    refine ⟨r', _, .nil, by simp [Fresh], .ended hr, ?_⟩
    rw [finish, Reader.finish_done hr]
    cases (Reader.expectEnd r'.stream).1 with
    | error e => rfl
    | ok _ => rfl
  | case2 seen r e r' hnext => exact ⟨r, _, .nil, by simp [Fresh], .refused hnext, rfl⟩
  | case3 seen r x r' hnext hx => exact ⟨r, _, .nil, by simp [Fresh], .repeated hnext hx, rfl⟩
  | case4 seen r x r' hnext hx more obstacle hmore ih =>
    rw [hmore] at ih
    obtain ⟨last, a, hy, hfresh, hs, hverdict⟩ := ih
    exact ⟨last, a, .cons hnext hy, fresh_cons.2 ⟨hx, hfresh⟩, Reader.namesAfter_cons x ▸ hs,
      hverdict⟩

/-- A listing holds the records up to its obstacle. -/
theorem ofStream_decoded (verify : Bool) (s : Stream) : ∃ a,
    Decoded { verify } s (ofStream verify s).records a ∧
      verdict (ofStream verify s).obstacle = a.mapError .format := by
  rw [ofStream]
  cases hstart : (Reader.start { verify } s).1 with
  | error e => exact ⟨.error e, .head hstart, rfl⟩
  | ok r =>
    obtain ⟨r', a, hy, hfresh, hs, hverdict⟩ := collect_stops [] r
    exact ⟨a, .records hstart hy hfresh (hs.congr Reader.mem_namesAfter_nil), hverdict⟩

/-- Reading the records of a file comes to what a listing of it says. -/
theorem read_eq (t : FileTree) (path : String) (verify : Bool) :
    DiffFile.read t path verify = (verdict (ofFile t path verify).obstacle).map fun _ =>
      (ofFile t path verify).records := by
  rw [DiffFile.read, ofFile]
  cases t.openFile path with
  | error f => rfl
  | ok s =>
    obtain ⟨a, hdecoded, hverdict⟩ := ofStream_decoded verify s
    dsimp only
    rw [readRecords_of_decoded hdecoded, hverdict]
    cases a with
    | error e => rfl
    | ok _ => rfl

end Listing

/-! ## Lines -/

/-- What is told of a record: its kind, its name, and the number of its bytes if it has any. -/
def Record.outline (x : Record) : Kind × String × Option Nat :=
  (x.kind, x.name, x.bytes?.map List.length)

namespace Listing

/-- A number of bytes, and a dash for none. -/
def sizeText : Option Nat → List Char
  | some n => Nat.toDigits 10 n
  | none => ['-']

theorem isDigit_of_mem_toDigits {n : Nat} {c : Char} (h : c ∈ Nat.toDigits 10 n) : c.isDigit :=
  Nat.isDigit_of_mem_toDigits (by decide) (by decide) h

theorem sizeText_ne_blank {size : Option Nat} {c : Char} (hc : c ∈ sizeText size) : c ≠ ' ' := by
  rintro rfl
  cases size with
  | none => simp [sizeText] at hc
  | some n => exact absurd (isDigit_of_mem_toDigits hc) (by decide)

theorem sizeText_injective {size size' : Option Nat} (h : sizeText size = sizeText size') :
    size = size' := by
  have hdash : ∀ n, sizeText (some n) ≠ sizeText none := by
    intro n hn
    have hmem : '-' ∈ Nat.toDigits 10 n := by
      change Nat.toDigits 10 n = ['-'] at hn
      simp [hn]
    exact absurd (isDigit_of_mem_toDigits hmem) (by decide)
  cases size with
  | none =>
    cases size' with
    | none => rfl
    | some n => exact absurd h.symm (hdash n)
  | some n =>
    cases size' with
    | none => exact absurd h (hdash n)
    | some n' =>
      have hvalue := congrArg (fun w => Nat.ofDigitChars 10 w 0) h
      simp only [sizeText, Nat.ofDigitChars_toDigits (b := 10) (by decide) (by decide)] at hvalue
      rw [hvalue]

theorem sizeText_ne_nil (size : Option Nat) : sizeText size ≠ [] := by
  cases size with
  | none => exact List.cons_ne_nil _ _
  | some n => exact Nat.toDigits_ne_nil

theorem pushn_toList (s : String) (c : Char) (n : Nat) :
    (s.pushn c n).toList = s.toList ++ List.replicate n c := by
  induction n with
  | zero => exact (List.append_nil _).symm
  | succ n ih =>
    change ((s.pushn c n).push c).toList = _
    rw [String.toList_push, ih, List.replicate_succ', List.append_assoc]

theorem right_toList (width : Nat) (text : List Char) :
    (Padding.right width (String.ofList text)).toList =
      List.replicate (width - text.length) ' ' ++ text := by
  change ("".pushn ' ' (width - (String.ofList text).length) ++ String.ofList text).toList = _
  simp [pushn_toList]

theorem left_kind_length (k : Kind) : (Padding.left kindWidth k.name).toList.length = kindWidth := by
  cases k <;> decide

theorem recordLine_eq (x : Record) : recordLine x = Padding.left kindWidth x.kind.name ++ " "
    ++ Padding.right sizeWidth (String.ofList (sizeText (x.bytes?.map List.length))) ++ "  "
    ++ x.name := by
  cases hx : x.bytes? with
  | none =>
    simp only [recordLine, hx]
    rfl
  | some b =>
    have hsize : toString b.length = String.ofList (Nat.toDigits 10 b.length) :=
      Nat.repr_eq_ofList_toDigits
    simp only [recordLine, hx, hsize]
    rfl

/-- A text after blanks tells itself, and what comes after the next blank. -/
theorem blanks_inj {text text' rest rest' : List Char} {n n' : Nat} (hn : text ≠ [])
    (hn' : text' ≠ []) (ht : ∀ c ∈ text, c ≠ ' ') (ht' : ∀ c ∈ text', c ≠ ' ')
    (h : List.replicate n ' ' ++ (text ++ ' ' :: rest) =
      List.replicate n' ' ' ++ (text' ++ ' ' :: rest')) : text = text' ∧ rest = rest' := by
  have hdrop : ∀ {u : List Char} (k : Nat) (v : List Char), u ≠ [] → (∀ c ∈ u, c ≠ ' ') →
      (List.replicate k ' ' ++ (u ++ v)).dropWhile (· == ' ') = u ++ v := by
    intro u k v hu hblank
    rw [List.dropWhile_append_of_pos (by simp)]
    cases u with
    | nil => exact absurd rfl hu
    | cons c u => exact List.dropWhile_cons_of_neg (by simpa using hblank c List.mem_cons_self)
  have htake : ∀ {u : List Char} (v : List Char), (∀ c ∈ u, c ≠ ' ') →
      (u ++ ' ' :: v).takeWhile (· != ' ') = u := by
    intro u v hblank
    rw [List.takeWhile_append_of_pos (by simpa using hblank), List.takeWhile_cons_of_neg (by simp),
      List.append_nil]
  have hfields := congrArg (List.dropWhile (· == ' ')) h
  rw [hdrop n _ hn ht, hdrop n' _ hn' ht'] at hfields
  have htext := congrArg (List.takeWhile (· != ' ')) hfields
  rw [htake rest ht, htake rest' ht'] at htext
  subst htext
  exact ⟨rfl, List.cons.inj (List.append_cancel_left hfields) |>.2⟩

/-- The line of a record tells its kind, its name, and how many bytes it has. -/
theorem recordLine_inj {x y : Record} : recordLine x = recordLine y ↔ x.outline = y.outline := by
  constructor
  · intro h
    rw [recordLine_eq, recordLine_eq] at h
    have hchars := congrArg String.toList h
    simp only [String.toList_append, List.append_assoc, right_toList] at hchars
    obtain ⟨hleft, hright⟩ := List.append_inj hchars
      ((left_kind_length x.kind).trans (left_kind_length y.kind).symm)
    obtain ⟨-, hfields⟩ := List.append_inj hright rfl
    obtain ⟨hsize, hname⟩ := blanks_inj (sizeText_ne_nil _) (sizeText_ne_nil _)
      (fun _ => sizeText_ne_blank) (fun _ => sizeText_ne_blank) hfields
    have hkind : x.kind = y.kind := by
      cases hx : x.kind <;> cases hy : y.kind <;> rw [hx, hy] at hleft <;>
        first | rfl | exact absurd hleft (by decide)
    have hname : x.name = y.name := String.toList_inj.1 (List.cons.inj hname).2
    rw [Record.outline, hkind, hname, sizeText_injective hsize]
    rfl
  · intro h
    obtain ⟨hkind, hname, hsize⟩ : x.kind = y.kind ∧ x.name = y.name ∧
        x.bytes?.map List.length = y.bytes?.map List.length := by simpa [Record.outline] using h
    rw [recordLine_eq, recordLine_eq, hkind, hname, hsize]

end Listing

/-! ## The command -/

namespace Program

open CommandLine

/-- The records of a file that are decoded before `e` ends the reading; a file that cannot be opened
has none. -/
inductive DecodedBefore (t : FileTree) (path : String) (verify : Bool) :
    FileError → List Record → Prop
  | notOpened {f : Fault} (h : t.openFile path = .error f) : DecodedBefore t path verify (.io f) []
  | stopped {s : Stream} {e : FormatError} {records : List Record} (h : t.openFile path = .ok s)
      (hd : Decoded { verify } s records (.error e)) :
      DecodedBefore t path verify (.format e) records

/-- What may come before the lines of the records: the lines of a head, where they are asked for. -/
def HeadLines (m : Manner) (lines : List String) : Prop :=
  lines = [] ∨ m.verbosity ≠ 0 ∧ ∃ h, lines = Listing.headLines h

/-- The records are what the outcome reports: a line for each on the one output and their totals on
the other, or both as one JSON text. -/
structure Reports (m : Manner) (records : List Record) (o : Outcome) : Prop where
  lines : m.json = false → ∃ head, HeadLines m head ∧ o.out = head ++ records.map Listing.recordLine
  totals : m.json = false → m.quiet = false →
    o.err = [say (Listing.totals (.ofRecords records))]
  json : m.json = true → HeadLines m o.out ∧ o.err = [(Listing.json records).pretty]

theorem headLines_listingLines (m : Manner) (l : Listing) : ∃ head, HeadLines m head ∧
    listingLines m l = head ++ if m.json then [] else l.records.map Listing.recordLine := by
  refine ⟨_, ?_, rfl⟩
  cases l.header with
  | none => exact .inl rfl
  | some h =>
    by_cases hm : m.verbosity = 0
    · exact .inl (if_pos hm)
    · exact .inr ⟨hm, h, if_neg hm⟩

variable {t : FileTree} {m : Manner} {r : ListRequest}

theorem decodedBefore_ofFile {path : String} {verify : Bool} {e : FileError}
    (h : DiffFile.read t path verify = .error e) :
    DecodedBefore t path verify e (Listing.ofFile t path verify).records := by
  rw [DiffFile.read] at h
  rw [Listing.ofFile]
  cases hopen : t.openFile path with
  | error f =>
    rw [hopen] at h
    cases h
    exact .notOpened hopen
  | ok s =>
    rw [hopen] at h
    obtain ⟨a, hdecoded, -⟩ := Listing.ofStream_decoded verify s
    simp only [readRecords_of_decoded hdecoded] at h
    cases a with
    | ok _ => cases h
    | error e' =>
      cases h
      exact .stopped hopen hdecoded

theorem list_of_read {records : List Record}
    (h : DiffFile.read t r.input r.verify = .ok records) :
    (list t m r).code = succeeded ∧ Reports m records (list t m r) := by
  rw [Listing.read_eq] at h
  obtain ⟨head, hhead, hout⟩ := headLines_listingLines m (Listing.ofFile t r.input r.verify)
  cases hobstacle : (Listing.ofFile t r.input r.verify).obstacle with
  | some obstacle =>
    rw [hobstacle] at h
    cases h
  | none =>
    rw [hobstacle] at h
    obtain rfl : (Listing.ofFile t r.input r.verify).records = records := Except.ok.inj h
    refine ⟨by simp [list, hobstacle], fun hjson => ⟨head, hhead, ?_⟩, fun hjson hquiet => ?_,
      fun hjson => ⟨?_, ?_⟩⟩
    · rw [hjson] at hout
      exact hout
    · simp [list, listingReport, hobstacle, hjson, hquiet]
    · rw [hjson] at hout
      have hlines : (list t m r).out = head := hout.trans (List.append_nil head)
      rwa [hlines]
    · simp [list, listingReport, hobstacle, hjson]

theorem list_of_unread {e : FileError} (h : DiffFile.read t r.input r.verify = .error e) :
    (list t m r).code = failed ∧ (m.json = false → ∃ head records, HeadLines m head ∧
      DecodedBefore t r.input r.verify e records ∧
      (list t m r).out = head ++ records.map Listing.recordLine) := by
  have hbefore := decodedBefore_ofFile h
  rw [Listing.read_eq] at h
  obtain ⟨head, hhead, hout⟩ := headLines_listingLines m (Listing.ofFile t r.input r.verify)
  cases hobstacle : (Listing.ofFile t r.input r.verify).obstacle with
  | none =>
    rw [hobstacle] at h
    cases h
  | some obstacle =>
    refine ⟨by simp [list, hobstacle], fun hjson => ⟨head, _, hhead, hbefore, ?_⟩⟩
    rw [hjson] at hout
    exact hout

end Program
end CollectionDelta
