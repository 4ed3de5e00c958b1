import CollectionDelta.Deflate.Inflate
import CollectionDelta.Proofs.Capping

/-!
Inflating up to a limit.

* `Inflater.capping`: a limit stops a reading with the bytes that are out, as soon as they reach it.
* `Inflater.obeys_bit` to `Inflater.obeys_frame`: each part of the reading obeys it.
* `Whole`: the bytes that data stand for, which no limit has cut; `Whole.unique`.
* `Whole.inflate`: under any limit, what is inflated begins with the same bytes.
-/

namespace CollectionDelta.Deflate
namespace Inflater

open Capping

def capping (input : ByteArray) : Capping (ByteArray × Nat) Window Halt where
  env limit := (input, limit)
  out w := w.out.data.toList
  Halts limit e := ∀ out, e = .full out → limit ≤ out.size
  Stops limit e b := ∃ out, e = .full out ∧ out.data.toList <+: b
  stops_of_prefix := by
    rintro limit e b b' hb ⟨out, he, hout⟩
    exact ⟨out, he, hout.trans hb⟩

variable {input : ByteArray} {α : Type}

/-! ## Bits and bytes -/

theorem obeys_corrupt : (capping input).Obeys (corrupt : Inflater α) := .throw nofun

theorem obeys_incomplete : (capping input).Obeys (throw .incomplete : Inflater α) := .throw nofun

/-- The data are refused where a condition holds. -/
theorem obeys_unless {c : Prop} [Decidable c] {k : Unit → Inflater α}
    (h : (capping input).Obeys (k ())) :
    (capping input).Obeys (if c then corrupt >>= k else k ()) :=
  .ite (.bind obeys_corrupt fun _ => h) h

theorem obeys_bit : (capping input).Obeys bit :=
  .read (fun _ _ => rfl) fun _ => .bind .get fun _ =>
    .ite (.bind (.modify fun _ => List.prefix_rfl) fun _ => .pure _) obeys_incomplete

theorem obeys_bits (n : Nat) : (capping input).Obeys (bits n) := by
  induction n with
  | zero => exact .pure 0
  | succ n ih => exact .bind obeys_bit fun _ => .bind ih fun _ => .pure _

theorem obeys_align : (capping input).Obeys align := .modify fun _ => List.prefix_rfl

theorem emit_apply (b : UInt8) (limit : Nat) (w : Window) : emit b (input, limit) w =
    if limit ≤ (w.out.push b).size then .error (.full (w.out.push b))
    else .ok ((), { w with out := w.out.push b }) := by
  change (if limit ≤ (w.out.push b).size then throw (.full (w.out.push b)) else pure () :
    Inflater Unit) (input, limit) { w with out := w.out.push b } = _
  split <;> rfl

theorem obeys_emit (b : UInt8) : (capping input).Obeys (emit b) := by
  refine .cut () (emit_apply b) (fun w => ⟨[b], ?_⟩) (fun hle => Nat.le_trans hle) fun hfull => ?_
  · simp [capping]
  · refine ⟨fun out hout => ?_, _, rfl, List.prefix_rfl⟩
    cases hout
    exact hfull

theorem obeys_symbolFrom (h : Huffman) (code first index length more : Nat) :
    (capping input).Obeys (symbolFrom h code first index length more) := by
  induction more generalizing code first index length with
  | zero => exact .pure none
  | succ more ih => exact .bind obeys_bit fun _ => .ite (.pure _) (ih _ _ _ _)

theorem obeys_symbol (h : Huffman) : (capping input).Obeys (symbol h) :=
  obeys_symbolFrom h 0 0 0 1 _

theorem obeys_copy (distance length : Nat) : (capping input).Obeys (copy distance length) := by
  induction length with
  | zero => exact .pure ()
  | succ length ih => exact .bind .get fun _ => .bind (obeys_emit _) fun _ => ih

/-! ## Blocks -/

theorem obeys_match (distances : Huffman) (lengthSymbol : Nat) :
    (capping input).Obeys (match_ distances lengthSymbol) := by
  unfold match_
  refine obeys_unless (.bind (obeys_bits _) fun _ => .bind (obeys_symbol _) fun d? => ?_)
  cases d? with
  | none => exact obeys_corrupt
  | some d =>
    exact obeys_unless (.bind (obeys_bits _) fun _ => .bind .get fun _ =>
      obeys_unless (obeys_copy _ _))

theorem obeys_symbols (lengths distances : Huffman) (fuel : Nat) :
    (capping input).Obeys (symbols lengths distances fuel) := by
  induction fuel with
  | zero => exact obeys_incomplete
  | succ fuel ih =>
    refine .bind (obeys_symbol _) fun s? => ?_
    cases s? with
    | none => exact obeys_corrupt
    | some s =>
      exact .ite (.bind (obeys_emit _) fun _ => ih)
        (.ite (.pure _) (.bind (obeys_match _ _) fun _ => ih))

theorem obeys_storedBytes (length : Nat) : (capping input).Obeys (storedBytes length) := by
  induction length with
  | zero => exact .pure ()
  | succ length ih => exact .bind (obeys_bits 8) fun _ => .bind (obeys_emit _) fun _ => ih

theorem obeys_stored : (capping input).Obeys stored :=
  .bind obeys_align fun _ => .bind (obeys_bits 16) fun _ => .bind (obeys_bits 16) fun _ =>
    obeys_unless (obeys_storedBytes _)

theorem obeys_codeLengths (code : Huffman) (wanted : Nat) (have_ : Array Nat) (fuel : Nat) :
    (capping input).Obeys (codeLengths code wanted have_ fuel) := by
  induction fuel generalizing have_ with
  | zero => exact .pure have_
  | succ fuel ih =>
    refine .ite (.pure _) (.bind (obeys_symbol _) fun _ => .ite (ih _) ?_)
    have hrest : ∀ x : Nat × Nat, (capping input).Obeys (if wanted < have_.size + x.2 then
        corrupt >>= fun _ => codeLengths code wanted (have_ ++ Array.replicate x.2 x.1) fuel
        else codeLengths code wanted (have_ ++ Array.replicate x.2 x.1) fuel) :=
      fun x => obeys_unless (ih _)
    refine .ite ?_ (.ite ?_ ?_)
    · exact .bind (obeys_bits 2) fun _ => obeys_unless (.bind (.pure _) hrest)
    · exact .bind (obeys_bits 3) fun _ => .bind (.pure _) hrest
    · exact .bind (obeys_bits 7) fun _ => .bind (.pure _) hrest

theorem obeys_readOrdered (lengths : Array Nat) (order : List Nat) :
    (capping input).Obeys (readOrdered lengths order) := by
  induction order generalizing lengths with
  | nil => exact .pure lengths
  | cons i order ih => exact .bind (obeys_bits 3) fun _ => ih _

theorem obeys_ownCodes : (capping input).Obeys ownCodes :=
  .bind (obeys_bits 5) fun _ => .bind (obeys_bits 5) fun _ => .bind (obeys_bits 4) fun _ =>
    obeys_unless <| .bind (obeys_readOrdered _ _) fun _ => obeys_unless <|
      .bind (obeys_codeLengths _ _ _ _) fun _ => obeys_unless <| obeys_unless <| obeys_unless <|
        .pure _

theorem obeys_block (fuel : Nat) : (capping input).Obeys (block fuel) :=
  .bind obeys_bit fun _ => .bind (obeys_bits 2) fun _ =>
    .ite (.bind obeys_stored fun _ => .pure _) <|
    .ite (.bind (obeys_symbols _ _ _) fun _ => .pure _) <|
    .ite (.bind obeys_ownCodes fun _ => .bind (obeys_symbols _ _ _) fun _ => .pure _) <|
    .bind obeys_corrupt fun _ => .pure _

theorem obeys_blocks (bitCount fuel : Nat) : (capping input).Obeys (blocks bitCount fuel) := by
  induction fuel with
  | zero => exact obeys_incomplete
  | succ fuel ih => exact .bind (obeys_block _) fun _ => .ite (.pure ()) ih

/-! ## The frame -/

theorem obeys_header : (capping input).Obeys header :=
  .bind (obeys_bits 8) fun _ => .bind (obeys_bits 8) fun _ =>
    obeys_unless (.ite (.bind (obeys_bits 32) fun _ => obeys_corrupt) (.pure ()))

theorem obeys_bytesBigEndian (n value : Nat) :
    (capping input).Obeys (bytesBigEndian n value) := by
  induction n generalizing value with
  | zero => exact .pure value
  | succ n ih => exact .bind (obeys_bits 8) fun _ => ih _

theorem obeys_frame (bitCount : Nat) : (capping input).Obeys (frame bitCount) :=
  .bind obeys_header fun _ => .bind (obeys_blocks _ _) fun _ => .bind obeys_align fun _ =>
    .bind (obeys_bytesBigEndian 4 0) fun _ => .bind .get fun _ => .ite obeys_corrupt (.pure ())

end Inflater

/-! ## Whole outputs -/

variable {input out out' : ByteArray} {limit : Nat}

/-- The data stand for the bytes: they are inflated under a limit that they do not reach. -/
def Whole (input out : ByteArray) : Prop :=
  ∃ limit, out.size < limit ∧ inflate input limit = .ok out

theorem inflate_eq (input : ByteArray) (limit : Nat) : inflate input limit =
    match Inflater.frame (8 * input.size + 1) (input, limit) {} with
    | .ok (_, w) => .ok w.out
    | .error (.full out) => .ok out
    | .error h => .error h := rfl

theorem inflate_of_ended {w : Window}
    (h : Inflater.frame (8 * input.size + 1) (input, limit) {} = .ok ((), w)) :
    inflate input limit = .ok w.out := by
  rw [inflate_eq, h]

theorem inflate_of_full
    (h : Inflater.frame (8 * input.size + 1) (input, limit) {} = .error (.full out)) :
    inflate input limit = .ok out := by
  rw [inflate_eq, h]

/-- What has not reached the limit is all that there is. -/
theorem ended_of_inflate (h : inflate input limit = .ok out) (hlt : out.size < limit) :
    ∃ w, Inflater.frame (8 * input.size + 1) (input, limit) {} = .ok ((), w) ∧ w.out = out := by
  rw [inflate_eq] at h
  split at h
  · next w hw =>
    cases h
    exact ⟨w, hw, rfl⟩
  · next hfull =>
    cases h
    exact absurd ((Inflater.obeys_frame _).halts hfull _ rfl) (Nat.not_le.2 hlt)
  · cases h

/-- What is inflated under any limit begins with the same bytes, up to the limit. -/
theorem Whole.inflate (h : Whole input out) (limit : Nat) : ∃ found,
    inflate input limit = .ok found ∧
      found.data.toList.take limit = out.data.toList.take limit := by
  obtain ⟨limit', hlt, hout⟩ := h
  obtain ⟨w, hw, rfl⟩ := ended_of_inflate hout hlt
  have hobeys : (Inflater.capping input).Obeys (Inflater.frame (8 * input.size + 1)) :=
    Inflater.obeys_frame _
  rcases Nat.le_total limit limit' with hle | hle
  · rcases hobeys.ok_or_stops hle hw with hsame | ⟨e, he, hhalts, found, rfl, more, hmore⟩
    · exact ⟨w.out, inflate_of_ended hsame, rfl⟩
    · have hlimit : limit ≤ found.data.toList.length := hhalts found rfl
      have hmore : found.data.toList ++ more = w.out.data.toList := hmore
      refine ⟨found, inflate_of_full he, ?_⟩
      rw [← hmore, List.take_append_of_le_length hlimit]
  · exact ⟨w.out, inflate_of_ended (hobeys.ok_of_le hle hw), rfl⟩

theorem Whole.unique (h : Whole input out) (h' : Whole input out') : out = out' := by
  obtain ⟨limit, hlt, hout⟩ := h
  obtain ⟨found, hfound, htake⟩ := h'.inflate limit
  cases hout.symm.trans hfound
  have hlen := congrArg List.length htake
  rw [List.length_take, List.length_take] at hlen
  have hsize : out.data.toList.length = out.size := rfl
  rw [List.take_of_length_le (by omega), List.take_of_length_le (by omega)] at htake
  exact ByteArray.ext (Array.toList_inj.1 htake)

end CollectionDelta.Deflate
