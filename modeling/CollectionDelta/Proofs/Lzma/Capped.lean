import CollectionDelta.Lzma.Decode
import CollectionDelta.Proofs.Capping

/-!
Decoding up to a limit.

* `Decoding.capping`: a limit stops a machine that has given out more.
* `Decoding.obeys_normalize` to `Decoding.obeys_symbols`: each part of the decoding obeys it.
* `Whole`: the bytes that data stand for, under a limit that is great enough.
* `Whole.decode`: under any other limit, they are decoded or there are too many of them.
-/

namespace CollectionDelta.Lzma
namespace Decoding

open Capping

def capping (properties : Properties) : Capping Setting Machine Halt where
  env limit := ⟨properties, limit⟩
  out m := m.out.data.toList
  Halts _ _ := True
  Stops limit e b := e = .tooLong ∧ limit < b.length
  stops_of_prefix hb h := ⟨h.1, Nat.lt_of_lt_of_le h.2 hb.length_le⟩

variable {properties : Properties} {α : Type}

theorem obeys_invalid : (capping properties).Obeys (invalid : Decoding α) := .throw fun _ => trivial

/-- The data are refused where a condition holds. -/
theorem obeys_unless {c : Prop} [Decidable c] {k : Unit → Decoding α}
    (h : (capping properties).Obeys (k ())) :
    (capping properties).Obeys (if c then invalid >>= k else k ()) :=
  .ite (.bind obeys_invalid fun _ => h) h

/-! ## The range decoder -/

theorem normalize_apply (setting : Setting) (m : Machine) : normalize setting m =
    if m.range < 0x1000000 then
      if m.at_ < m.input.size then .ok ((), { m with
        at_ := m.at_ + 1, range := m.range <<< 8
        code := (m.code <<< 8) ^^^ (m.input.get! m.at_).toUInt32 })
      else .error .invalid
    else .ok ((), m) := by
  change (if m.range < 0x1000000 then if m.at_ < m.input.size then
      set { m with
        at_ := m.at_ + 1, range := m.range <<< 8
        code := (m.code <<< 8) ^^^ (m.input.get! m.at_).toUInt32 }
    else invalid else pure () : Decoding Unit) setting m = _
  split
  · split <;> rfl
  · rfl

theorem obeys_normalize : (capping properties).Obeys normalize := by
  refine .of_blind (fun _ _ => funext fun m => ?_) (fun h => ?_) fun _ => trivial
  · rw [normalize_apply, normalize_apply]
  · rw [normalize_apply] at h
    split at h
    · split at h
      · cases h
        exact List.prefix_rfl
      · cases h
    · cases h
      exact List.prefix_rfl

/-- A change of anything but what is given out. -/
theorem obeys_modify {f : Machine → Machine} (h : ∀ m, (f m).out = m.out) :
    (capping properties).Obeys (modify f) :=
  .modify fun m => by simp only [capping, h, List.prefix_rfl]

theorem obeys_bit (place : Nat) : (capping properties).Obeys (bit place) :=
  .bind .get fun _ => .ite
    (.bind (obeys_modify fun _ => rfl) fun _ => .bind obeys_normalize fun _ => .pure 0)
    (.bind (obeys_modify fun _ => rfl) fun _ => .bind obeys_normalize fun _ => .pure 1)

theorem obeys_direct (value n : Nat) : (capping properties).Obeys (direct value n) := by
  induction n generalizing value with
  | zero => exact .pure value
  | succ n ih =>
    have hrest : ∀ value, (capping properties).Obeys (normalize >>= fun _ => direct value n) :=
      fun value => .bind obeys_normalize fun _ => ih value
    exact .bind (obeys_modify fun _ => rfl) fun _ => .bind .get fun _ =>
      .ite (.bind (obeys_modify fun _ => rfl) fun _ => hrest _) (hrest _)

theorem obeys_treeFrom (base node n : Nat) :
    (capping properties).Obeys (treeFrom base node n) := by
  induction n generalizing node with
  | zero => exact .pure node
  | succ n ih => exact .bind (obeys_bit _) fun _ => ih _

theorem obeys_tree (base bits : Nat) : (capping properties).Obeys (tree base bits) :=
  .bind (obeys_treeFrom _ _ _) fun _ => .pure _

theorem obeys_reverseTree (base node weight value n : Nat) :
    (capping properties).Obeys (reverseTree base node weight value n) := by
  induction n generalizing node weight value with
  | zero => exact .pure value
  | succ n ih => exact .bind (obeys_bit _) fun _ => ih _ _ _

theorem obeys_isFinished : (capping properties).Obeys isFinished :=
  .bind .get fun _ => .pure _

/-! ## The dictionary -/

theorem emit_apply (b : UInt8) (limit : Nat) (m : Machine) : emit b ⟨properties, limit⟩ m =
    if (m.out.push b).size % properties.dictionary = 0 ∧ limit < (m.out.push b).size then
      .error .tooLong
    else .ok ((), { m with out := m.out.push b }) := by
  change (if (m.out.push b).size % properties.dictionary = 0 ∧ limit < (m.out.push b).size then
    throw .tooLong else pure () : Decoding Unit) ⟨properties, limit⟩
      { m with out := m.out.push b } = _
  split <;> rfl

theorem obeys_emit (b : UInt8) : (capping properties).Obeys (emit b) := by
  refine .cut () (emit_apply b) (fun m => ⟨[b], ?_⟩)
    (fun hle hlong => ⟨hlong.1, Nat.lt_of_le_of_lt hle hlong.2⟩)
    fun hlong => ⟨trivial, rfl, hlong.2⟩
  simp [capping]

theorem obeys_byteBefore (distance : Nat) : (capping properties).Obeys (byteBefore distance) :=
  .read (fun _ _ => rfl) fun _ => (.bind .get fun _ => obeys_unless (.pure _))

theorem obeys_copyBytes (distance length : Nat) :
    (capping properties).Obeys (copyBytes distance length) := by
  induction length with
  | zero => exact .pure ()
  | succ length ih => exact .bind .get fun _ => .bind (obeys_emit _) fun _ => ih

theorem obeys_copy (length distance : Nat) : (capping properties).Obeys (copy length distance) :=
  .read (fun _ _ => rfl) fun _ => (.bind .get fun _ => obeys_unless (obeys_copyBytes _ _))

/-! ## Symbols -/

theorem obeys_plainLiteral (base node fuel : Nat) :
    (capping properties).Obeys (plainLiteral base node fuel) := by
  induction fuel generalizing node with
  | zero => exact .pure node
  | succ fuel ih => exact .ite (.pure _) (.bind (obeys_bit _) fun _ => ih _)

theorem obeys_matchedLiteral (base expected node fuel : Nat) :
    (capping properties).Obeys (matchedLiteral base expected node fuel) := by
  induction fuel generalizing expected node with
  | zero => exact .pure node
  | succ fuel ih =>
    exact .ite (.pure _) (.bind (obeys_bit _) fun _ => .ite (ih _ _) (obeys_plainLiteral _ _ _))

theorem obeys_literal : (capping properties).Obeys literal := by
  refine .read (fun _ _ => rfl) fun _ => (.bind .get fun m => ?_)
  have hrest : ∀ node, (capping properties).Obeys (emit (UInt8.ofNat (node - 0x100)) >>= fun _ =>
      modify fun m => { m with
        state := if m.state < 4 then 0 else if m.state < 10 then m.state - 3 else m.state - 6 }) :=
    fun node => .bind (obeys_emit _) fun _ => obeys_modify fun _ => rfl
  exact .ite (.bind (obeys_byteBefore _) fun _ => .bind (obeys_matchedLiteral _ _ _ _) hrest)
    (.bind (obeys_plainLiteral _ _ _) hrest)

theorem obeys_length (base positionState : Nat) :
    (capping properties).Obeys (length base positionState) :=
  .bind (obeys_bit _) fun _ => .ite (obeys_tree _ _) <| .bind (obeys_bit _) fun _ =>
    .ite (.bind (obeys_tree _ _) fun _ => .pure _) (.bind (obeys_tree _ _) fun _ => .pure _)

theorem obeys_distance (length : Nat) : (capping properties).Obeys (distance length) :=
  .bind (obeys_tree _ _) fun _ => .ite (.pure _) <|
    .ite (obeys_reverseTree _ _ _ _ _) <| .bind (obeys_direct _ _) fun _ =>
      obeys_reverseTree _ _ _ _ _

theorem obeys_repeated (positionState : Nat) :
    (capping properties).Obeys (repeated positionState) := by
  have hrest : (capping properties).Obeys (do
      let l ← length Model.repLength positionState
      modify fun m => { m with state := if m.state < 7 then 8 else 11 }
      copy (l + 2) ((← get).rep0 + 1)) :=
    .bind (obeys_length _ _) fun _ => .bind (obeys_modify fun _ => rfl) fun _ =>
      .bind .get fun _ => obeys_copy _ _
  refine .bind .get fun m => .bind (obeys_bit _) fun _ => .ite ?_ ?_
  · exact .bind (obeys_bit _) fun _ => .ite (.bind (obeys_modify fun _ => rfl) fun _ =>
      .bind (obeys_copy _ _) fun _ => .pure ()) hrest
  · exact .bind (obeys_bit _) fun _ => .ite (.bind (obeys_modify fun _ => rfl) fun _ => hrest) <|
      .bind (obeys_bit _) fun _ => .ite (.bind (obeys_modify fun _ => rfl) fun _ => hrest)
        (.bind (obeys_modify fun _ => rfl) fun _ => hrest)

theorem obeys_fresh (positionState : Nat) : (capping properties).Obeys (fresh positionState) :=
  .bind (obeys_length _ _) fun _ => .bind (obeys_distance _) fun _ =>
    .bind (obeys_modify fun _ => rfl) fun _ =>
      have hrest := .bind (obeys_copy _ _) fun _ => .pure false
      .ite (.bind obeys_isFinished fun _ => .ite (.pure true) (.bind obeys_invalid fun _ => hrest))
        hrest

theorem obeys_symbol : (capping properties).Obeys symbol :=
  .read (fun _ _ => rfl) fun _ => .bind .get fun _ => .bind (obeys_bit _) fun _ =>
    .ite (.bind obeys_literal fun _ => .pure _) <| .bind (obeys_bit _) fun _ =>
      .ite (obeys_fresh _) (.bind (obeys_repeated _) fun _ => .pure _)

theorem obeys_symbols (fuel : Nat) : (capping properties).Obeys (symbols fuel) := by
  induction fuel with
  | zero => exact obeys_invalid
  | succ fuel ih =>
    refine .bind .get fun m => .read (fun _ _ => rfl) fun limit => ?_
    split
    · exact .ite (.ite obeys_invalid (.pure ())) (.bind obeys_symbol fun _ => .ite obeys_invalid ih)
    · exact .bind obeys_isFinished fun _ => .ite (.pure ()) <|
        .bind obeys_symbol fun _ => .ite (.pure ()) ih

end Decoding

/-! ## Whole outputs -/

variable {input out : ByteArray} {limit : Nat}

/-- The data stand for the bytes: they are decoded under some limit. -/
def Whole (input out : ByteArray) : Prop := ∃ limit, decode input limit = .ok out

/-- The machine before the first symbol. -/
def Machine.starting (input : ByteArray) (p : Properties) : Machine where
  input
  at_ := headSize + 5
  range := 0xFFFFFFFF
  code := UInt32.ofNat
    (Nat.fold 4 (fun i _ n => 256 * n + (input.get! (headSize + 1 + i)).toNat) 0)
  probabilities := Model.start (1 <<< (p.literalContext + p.literalPosition))
  out := ByteArray.empty
  state := 0
  rep0 := 0
  rep1 := 0
  rep2 := 0
  rep3 := 0

theorem decode_eq (input : ByteArray) (limit : Nat) : decode input limit =
    (readProperties input).bind fun p => if input.size < headSize + 5 then .error .invalid else
      (Decoding.symbols (bitsPerByte * (input.size + 8)) ⟨p, limit⟩ (.starting input p)).bind
        fun x => if limit < x.2.out.size then .error .tooLong else .ok x.2.out := by
  refine congrArg (Except.bind (readProperties input)) (funext fun p => ?_)
  dsimp only
  by_cases hshort : input.size < headSize + 5
  · rw [if_pos hshort, if_pos hshort]
    rfl
  · rw [if_neg hshort, if_neg hshort]
    refine congrArg (Except.bind _) (funext fun x => ?_)
    by_cases hlong : limit < x.2.out.size
    · rw [if_pos hlong, if_pos hlong]
      rfl
    · rw [if_neg hlong, if_neg hlong]
      rfl

/-- A machine that comes to its end may still have given out too much. -/
theorem decode_of_ended {p : Properties} {m : Machine} (hp : readProperties input = .ok p)
    (hsize : headSize + 5 ≤ input.size)
    (hm : Decoding.symbols (bitsPerByte * (input.size + 8)) ⟨p, limit⟩ (.starting input p) =
      .ok ((), m)) :
    decode input limit = if limit < m.out.size then .error .tooLong else .ok m.out := by
  rw [decode_eq, hp, Except.bind, if_neg (Nat.not_lt.2 hsize), hm]
  rfl

theorem ended_of_decode (h : decode input limit = .ok out) : ∃ p m,
    readProperties input = .ok p ∧ headSize + 5 ≤ input.size ∧
      Decoding.symbols (bitsPerByte * (input.size + 8)) ⟨p, limit⟩ (.starting input p) =
        .ok ((), m) ∧ m.out = out := by
  rw [decode_eq] at h
  cases hp : readProperties input with
  | error e =>
    rw [hp] at h
    cases h
  | ok p =>
    rw [hp, Except.bind] at h
    by_cases hsize : input.size < headSize + 5
    · rw [if_pos hsize] at h
      cases h
    · rw [if_neg hsize] at h
      cases hm : Decoding.symbols (bitsPerByte * (input.size + 8)) ⟨p, limit⟩
          (.starting input p) with
      | error e =>
        rw [hm] at h
        cases h
      | ok x =>
        obtain ⟨u, m⟩ := x
        rw [hm, Except.bind] at h
        split at h
        · cases h
        · exact ⟨p, m, rfl, Nat.le_of_not_lt hsize, hm, Except.ok.inj h⟩

/-- Under any limit, the data are decoded to the same bytes, unless these are too many. -/
theorem Whole.decode (h : Whole input out) (limit : Nat) :
    decode input limit = if limit < out.size then .error .tooLong else .ok out := by
  obtain ⟨limit', h⟩ := h
  obtain ⟨p, m, hp, hsize, hm, rfl⟩ := ended_of_decode h
  have hobeys : (Decoding.capping p).Obeys
      (Decoding.symbols (bitsPerByte * (input.size + 8))) := Decoding.obeys_symbols _
  rcases Nat.le_total limit limit' with hle | hle
  · rcases hobeys.ok_or_stops hle hm with hsame | ⟨e, he, -, rfl, hlong⟩
    · exact decode_of_ended hp hsize hsame
    · have he : Decoding.symbols (bitsPerByte * (input.size + 8)) ⟨p, limit⟩ (.starting input p) =
          .error .tooLong := he
      rw [decode_eq, hp, Except.bind, if_neg (Nat.not_lt.2 hsize), he]
      exact (if_pos hlong).symm
  · exact decode_of_ended hp hsize (hobeys.ok_of_le hle hm)

theorem Whole.unique {out' : ByteArray} (h : Whole input out) (h' : Whole input out') :
    out = out' := by
  obtain ⟨limit, hout⟩ := h
  rw [h'.decode limit] at hout
  split at hout
  · cases hout
  · exact (Except.ok.inj hout).symm

end CollectionDelta.Lzma
