import CollectionDelta.Proofs.FirstBytes
import CollectionDelta.Proofs.Lzma.Lockstep
import Mathlib.Logic.Function.Iterate

/-!
Literals and the end marker, written and read.

* `Encoder.State.Fresh`: a stretch of the model that no bit has touched.
* `Encoder.marked`: the encoder that has written the end marker, if it adapts to it as to all other
  bits; `writer_marked` says that the marker is the same without that.
* `Decoding.decodes_symbol`: a literal is read as the byte that it stands for.
* `Decoding.decodes_marked`, `Decoding.symbol_ends`: the marker is read as the end.
-/

namespace CollectionDelta.Lzma

namespace Encoder

variable {s : State} {start stop place : Nat}

/-! ## Untouched probabilities -/

def State.Fresh (s : State) (start stop : Nat) : Prop :=
  ∀ place, start ≤ place → place < stop → s.probabilities[place]! = Model.half

theorem State.Fresh.mono {start' stop' : Nat} (h : s.Fresh start stop) (hstart : start ≤ start')
    (hstop : stop' ≤ stop) : s.Fresh start' stop' :=
  fun place hle hlt => h place (Nat.le_trans hstart hle) (Nat.lt_of_lt_of_le hlt hstop)

theorem State.Fresh.of_writer (h : s.Fresh start stop) (w : RangeWriter) :
    State.Fresh ⟨w, s.probabilities⟩ start stop :=
  fun place hle hlt => h place hle hlt

theorem State.Fresh.bit (h : s.Fresh start stop) (hplace : place < start ∨ stop ≤ place)
    (b : Bool) : (bit s place b).Fresh start stop := by
  intro place' hle hlt
  have hne : place ≠ place' := by omega
  change (s.probabilities.set! place _)[place']! = _
  rw [Array.set!_eq_setIfInBounds, Array.getElem!_eq_getD, Array.getD_eq_getD_getElem?,
    Array.getElem?_setIfInBounds_ne hne, ← Array.getD_eq_getD_getElem?, ← Array.getElem!_eq_getD]
  exact h place' hle hlt

theorem State.Fresh.literalBits {base node n top : Nat} (h : s.Fresh start stop)
    (htop : (node + 1) * 2 ^ n ≤ 2 * top) (hplaces : base + top ≤ start ∨ stop ≤ base + node)
    (value : Nat) : (literalBits s base value node n).Fresh start stop := by
  induction n generalizing s node with
  | zero => exact h
  | succ n ih =>
    obtain ⟨hnode, hchild⟩ := Decoding.node_lt htop
      (Nat.le_of_lt_succ (Nat.mod_lt (value >>> n) Nat.two_pos))
    exact ih (h.bit (by omega) _) hchild (by omega)

/-- Bits at untouched places are as likely zero as one. -/
theorem writer_bit (hplace : s.probabilities[place]! = Model.half) (b : Bool) :
    (bit s place b).writer = s.writer.bit Model.half b := by
  rw [← hplace]
  rfl

theorem writer_literalBits {base node n top value : Nat} {b : Bool}
    (h : s.Fresh (base + node) (base + top)) (hpos : 0 < node)
    (htop : (node + 1) * 2 ^ n ≤ 2 * top) (hvalue : ∀ k < n, value >>> k % 2 = b.toNat) :
    (literalBits s base value node n).writer =
      (fun w => w.bit Model.half b)^[n] s.writer := by
  induction n generalizing s node with
  | zero => rfl
  | succ n ih =>
    have hbit := hvalue n (Nat.lt_succ_self n)
    obtain ⟨hnode, hchild⟩ := Decoding.node_lt htop (Bool.toNat_le b)
    have hone : decide (b.toNat = 1) = b := by cases b <;> rfl
    rw [literalBits, hbit, hone, Function.iterate_succ_apply,
      ← writer_bit (h (base + node) (Nat.le_refl _) (Nat.add_lt_add_left hnode base))]
    exact ih ((h.mono (by omega) (Nat.le_refl _)).bit (by omega) b) (by omega) hchild
      fun k hk => hvalue k (Nat.lt_succ_of_lt hk)

/-! ## The end marker -/

def markedLength (s : State) (positionState : Nat) : State :=
  literalBits (bit s Model.matchLength false) (Model.matchLength + 2 + 8 * positionState) 0 1 3

def markedDistance (s : State) : State :=
  let s := literalBits s Model.slots 63 1 6
  literalBits ⟨RangeWriter.directOne^[26] s.writer, s.probabilities⟩ Model.align 15 1 4

def marked (s : State) (position : Nat) : State :=
  let positionState := position % positionStates
  let s := bit (bit s (Model.isMatch + positionState) true) Model.isRep false
  markedDistance (markedLength s positionState)

theorem fold_eq_iterate {α : Type} (f : α → α) (n : Nat) (a : α) :
    Nat.fold n (fun _ _ a => f a) a = f^[n] a := by
  induction n with
  | zero => rfl
  | succ n ih => rw [Nat.fold_succ, ih, Function.iterate_succ_apply']

variable {positionState : Nat}

theorem writer_markedLength (h : s.Fresh Model.matchLength Model.literals)
    (hstate : positionState < positionStates) : (markedLength s positionState).writer =
      (fun w => w.bit Model.half false)^[4] s.writer := by
  have hend : Model.literals = Model.matchLength + 1028 := rfl
  have hfirst := writer_bit (h Model.matchLength (Nat.le_refl _) (by omega)) false
  have hrest : (bit s Model.matchLength false).Fresh
      (Model.matchLength + 2 + 8 * positionState + 1)
      (Model.matchLength + 2 + 8 * positionState + 8) := by
    unfold positionStates at hstate
    exact (h.mono (by omega) (by omega)).bit (by omega) false
  have hbits : ∀ k < 3, 0 >>> k % 2 = false.toNat := by decide
  rw [markedLength, writer_literalBits hrest Nat.one_pos (by decide) hbits, hfirst]
  rfl

theorem State.Fresh.markedLength (h : s.Fresh Model.slots Model.matchLength) :
    (markedLength s positionState).Fresh Model.slots Model.matchLength := by
  have hnodes : (1 + 1) * 2 ^ 3 ≤ 2 * 8 := by decide
  exact (h.bit (by omega) false).literalBits hnodes (by omega) 0

theorem writer_markedDistance (h : s.Fresh Model.slots Model.matchLength) :
    (markedDistance s).writer = (fun w => w.bit Model.half true)^[4]
      (RangeWriter.directOne^[26] ((fun w => w.bit Model.half true)^[6] s.writer)) := by
  have hspecial : Model.special = Model.slots + 256 := rfl
  have halign : Model.align = Model.slots + 371 := rfl
  have hend : Model.matchLength = Model.align + 16 := rfl
  have hnodes : (1 + 1) * 2 ^ 6 ≤ 2 * 64 := by decide
  have hslot : (literalBits s Model.slots 63 1 6).writer =
      (fun w => w.bit Model.half true)^[6] s.writer :=
    writer_literalBits (h.mono (by omega) (by omega)) Nat.one_pos hnodes (by decide)
  have hrest : (literalBits s Model.slots 63 1 6).Fresh Model.align Model.matchLength :=
    (h.mono (by omega) (Nat.le_refl _)).literalBits hnodes (by omega) 63
  have hnodes : (1 + 1) * 2 ^ 4 ≤ 2 * 16 := by decide
  have hlast : ∀ w, (literalBits ⟨w, (literalBits s Model.slots 63 1 6).probabilities⟩ Model.align
      15 1 4).writer = (fun w => w.bit Model.half true)^[4] w :=
    fun w => writer_literalBits ((hrest.mono (by omega) (by omega)).of_writer w) Nat.one_pos hnodes
      (by decide)
  dsimp only [markedDistance]
  rw [hlast, hslot]

theorem writer_marked (h : s.Fresh Model.isRep Model.literals) (position : Nat) :
    (marked s position).writer = endMarker s position := by
  have hstate : position % positionStates < positionStates := Nat.mod_lt position (by decide)
  rw [endMarker, fold_eq_iterate, fold_eq_iterate, fold_eq_iterate, fold_eq_iterate, marked]
  generalize position % positionStates = positionState at hstate ⊢
  have hisMatch : Model.isMatch + 192 = Model.isRep := rfl
  have hslots : Model.slots = Model.isRep + 240 := rfl
  have hlength : Model.matchLength = Model.isRep + 627 := rfl
  have hliterals : Model.literals = Model.isRep + 1655 := rfl
  unfold positionStates at hstate
  have hfirst : (bit s (Model.isMatch + positionState) true).Fresh Model.isRep Model.literals :=
    h.bit (by omega) true
  have hsecond : (bit (bit s (Model.isMatch + positionState) true) Model.isRep false).Fresh
      (Model.isRep + 1) Model.literals :=
    (hfirst.mono (by omega) (Nat.le_refl _)).bit (by omega) false
  have hslot : (bit (bit s (Model.isMatch + positionState) true) Model.isRep false).Fresh
      Model.slots Model.matchLength := hsecond.mono (by omega) (by omega)
  rw [writer_markedDistance hslot.markedLength,
    writer_markedLength (hsecond.mono (by omega) (Nat.le_refl _)) hstate,
    writer_bit (hfirst Model.isRep (Nat.le_refl _) (by omega))]
  rfl

/-! ## Literals -/

/-- What the head says that is written. -/
def properties : Properties := ⟨literalContext, 0, 2, 0x800000, none⟩

def previous (data : ByteArray) (i : Nat) : Nat := if i = 0 then 0 else (data.get! (i - 1)).toNat

def literalPlace (data : ByteArray) (i : Nat) : Nat :=
  Model.literals + Model.literalSize * (previous data i >>> (8 - literalContext))

def literalAt (data : ByteArray) (i : Nat) (s : State) : State :=
  literal s i (previous data i) (data.get! i).toNat

theorem literalAt_eq (data : ByteArray) (i : Nat) (s : State) : literalAt data i s =
    literalBits (bit s (Model.isMatch + i % positionStates) false) (literalPlace data i)
      (data.get! i).toNat 1 8 := rfl

theorem literalPlace_le (data : ByteArray) (i : Nat) :
    literalPlace data i + 256 ≤ Model.literals + Model.literalSize * literalContexts := by
  have hprevious : previous data i < 256 := by
    unfold previous
    split
    · decide
    · exact UInt8.toNat_lt _
  have hcontext : previous data i >>> (8 - literalContext) ≤ 7 := by
    rw [Nat.shiftRight_eq_div_pow, show 8 - literalContext = 5 from rfl]
    omega
  have hmul := Nat.mul_le_mul_left Model.literalSize hcontext
  have hlast : Model.literalSize * 7 + 768 = Model.literalSize * literalContexts := rfl
  unfold literalPlace
  omega

theorem State.Fresh.literalAt (h : s.Fresh Model.isRep Model.literals) (data : ByteArray)
    (i : Nat) : (literalAt data i s).Fresh Model.isRep Model.literals := by
  have hplace : Model.isMatch + i % positionStates < Model.isRep := by
    have hmod : i % positionStates < 4 := Nat.mod_lt i (by decide)
    have hisRep : Model.isRep = Model.isMatch + 192 := rfl
    omega
  have hbase : Model.literals ≤ literalPlace data i + 1 := by
    unfold literalPlace
    omega
  have hnodes : (1 + 1) * 2 ^ 8 ≤ 2 * 256 := by decide
  rw [literalAt_eq]
  exact (h.bit (.inl hplace) false).literalBits hnodes (.inr hbase) _

end Encoder

namespace Decoding

variable {setting : Setting} {s s' : Encoder.State} {out data : ByteArray} {positionState i : Nat}

/-! ## The end marker -/

theorem decodes_length (hs : s.Sound) (hstate : positionState < Encoder.positionStates) :
    Decodes setting (length Model.matchLength positionState) s out 0
      (Encoder.markedLength s positionState) out := by
  have hsize := hs.size
  have hend : Model.literals = Model.matchLength + 1028 := rfl
  have hbit : Decodes setting (bit Model.matchLength) s out 0
      (Encoder.bit s Model.matchLength false) out := decodes_bit hs (by omega) false
  refine hbit.bind ?_
  rw [if_pos rfl]
  refine decodes_tree hbit.sound ?_ (by decide)
  rw [Encoder.size_bit]
  unfold Encoder.positionStates at hstate
  omega

/-- The bits of the distance that are as likely zero as one leave almost nothing of the interval. -/
theorem decodes_distance (hs : s.Sound) :
    Decodes setting (distance 0) s out endMarker (Encoder.markedDistance s) out ∧
      (Encoder.markedDistance s).writer.width ≤ 1 / 256 * s.writer.width := by
  have hsize := hs.size
  have hslots : Model.slots + 1415 = Model.literals := rfl
  have halign : Model.align + 1044 = Model.literals := rfl
  have hslot : Decodes setting (tree Model.slots 6) s out 63
      (Encoder.literalBits s Model.slots 63 1 6) out := decodes_tree hs (by omega) (by decide)
  dsimp only [Encoder.markedDistance]
  generalize Encoder.literalBits s Model.slots 63 1 6 = s₁ at hslot ⊢
  have hdirect : Decodes setting (direct 0 26) s₁ out (2 ^ 26 * (0 + 1) - 1) _ out :=
    decodes_direct hslot.sound 0 26
  have hwidth := RangeWriter.width_directOne_iterate_le hslot.sound.writer 26
  generalize hdirects : Encoder.State.mk (RangeWriter.directOne^[26] s₁.writer)
    s₁.probabilities = s₂ at hdirect ⊢
  have hplaces : Model.align + 16 ≤ s₂.probabilities.size := by
    rw [hdirect.sound.size]
    omega
  have hnodes : (1 + 1) * 2 ^ 4 ≤ 2 * 16 := by decide
  have hhigh : (2 + 63 % 2) <<< (63 / 2 - 1) + 16 * (2 ^ 26 * (0 + 1) - 1) = 0xFFFFFFF0 := by decide
  have hend : endMarker = 0xFFFFFFF0 + 1 * (2 ^ 4 - 1) := by decide
  have hlow : Decodes setting (reverseTree Model.align 1 1 0xFFFFFFF0 4) s₂ out
      (0xFFFFFFF0 + 1 * (2 ^ 4 - 1)) (Encoder.literalBits s₂ Model.align 15 1 4) out :=
    decodes_reverseTree hdirect.sound hplaces hnodes (by decide) 1 0xFFFFFFF0
  constructor
  · refine hslot.bind ?_
    rw [if_neg (by decide), if_neg (by decide)]
    refine hdirect.bind ?_
    rw [hhigh, hend]
    exact hlow
  · have hle := hlow.refines.width_le
    have hmid : s₂.writer.width ≤ (1 / 2) ^ 26 * s₁.writer.width := hdirects ▸ hwidth
    have hfirst := hslot.refines.width_le
    have hpos : 0 ≤ s₁.writer.width := s₁.writer.width_nonneg
    norm_num at hmid
    linarith

/-! ## Literals -/

/-- The places of a literal, as the decoder finds them. -/
theorem literalPlace_eq {out : ByteArray} (hi : i ≤ data.size) (hout : out = firstBytes data i) :
    Model.literals + Model.literalSize *
      ((out.size % 1 <<< Encoder.properties.literalPosition) <<< Encoder.properties.literalContext +
        (if out.size = 0 then 0 else (out.get! (out.size - 1)).toNat) >>>
          (8 - Encoder.properties.literalContext)) = Encoder.literalPlace data i := by
  subst hout
  have hprevious : (if (firstBytes data i).size = 0 then 0 else
      ((firstBytes data i).get! ((firstBytes data i).size - 1)).toNat) =
        Encoder.previous data i := by
    rw [size_firstBytes hi, Encoder.previous]
    split
    · rfl
    · rw [get!_firstBytes data (by omega)]
  have hposition : (firstBytes data i).size % 1 <<< Encoder.properties.literalPosition = 0 :=
    Nat.mod_one _
  rw [hprevious, hposition, Nat.zero_shiftLeft, Nat.zero_add]
  rfl

theorem decodes_literal {limit : Nat} (hs : s.Sound) (hi : i < data.size)
    (hlimit : data.size ≤ limit) :
    Decodes ⟨Encoder.properties, limit⟩ literal s (firstBytes data i) ()
      (Encoder.literalBits s (Encoder.literalPlace data i) (data.get! i).toNat 1 8)
      (firstBytes data (i + 1)) := by
  have hplaces := hs.size ▸ Encoder.literalPlace_le data i
  have hbyte : UInt8.ofNat (256 + (data.get! i).toNat - 256) = data.get! i := by
    rw [Nat.add_sub_cancel_left, UInt8.ofNat_toNat]
  have hnode : Decodes ⟨Encoder.properties, limit⟩ (plainLiteral (Encoder.literalPlace data i) 1 8)
      s (firstBytes data i) _ _ (firstBytes data i) := decodes_plainLiteral hs hplaces (data.get! i)
  generalize Encoder.literalBits s (Encoder.literalPlace data i) (data.get! i).toNat 1 8 = s'
    at hnode ⊢
  refine .read (.get fun input => ?_)
  have hstate : ¬ 7 ≤ (Machine.follows input s (firstBytes data i)).state :=
    Nat.not_le.2 (Nat.succ_pos 6)
  have hplace := literalPlace_eq (Nat.le_of_lt hi)
    (rfl : (Machine.follows input s (firstBytes data i)).out = firstBytes data i)
  dsimp only
  rw [if_neg hstate, hplace]
  refine hnode.bind ?_
  rw [hbyte, ← push_firstBytes hi]
  refine (decodes_emit hnode.sound ?_).bind ⟨hnode.sound, .refl hnode.sound.writer, fun _ _ => rfl⟩
  rw [push_firstBytes hi, size_firstBytes hi]
  exact Nat.le_trans hi hlimit

theorem matchPlace_lt (hs : s.Sound) (i : Nat) :
    Model.isMatch + i % Encoder.positionStates < s.probabilities.size := by
  have hmod : i % Encoder.positionStates < 4 := Nat.mod_lt i (by decide)
  have hliterals : Model.literals = Model.isMatch + 1847 := rfl
  have hsize := hs.size
  omega

theorem matchPlace_eq {m : Machine} (hi : i ≤ data.size) (hstate : m.state = 0)
    (hout : m.out = firstBytes data i) :
    Model.isMatch + 16 * m.state + m.out.size % (1 <<< Encoder.properties.position) =
      Model.isMatch + i % Encoder.positionStates := by
  rw [hstate, hout, size_firstBytes hi]
  rfl

theorem decodes_symbol {limit : Nat} (hs : s.Sound) (hi : i < data.size)
    (hlimit : data.size ≤ limit) :
    Decodes ⟨Encoder.properties, limit⟩ symbol s (firstBytes data i) false
      (Encoder.literalAt data i s) (firstBytes data (i + 1)) := by
  have hbit : Decodes ⟨Encoder.properties, limit⟩
      (bit (Model.isMatch + i % Encoder.positionStates)) s (firstBytes data i) 0
      (Encoder.bit s (Model.isMatch + i % Encoder.positionStates) false) (firstBytes data i) :=
    decodes_bit hs (matchPlace_lt hs i) false
  refine .read (.get fun input => ?_)
  dsimp only
  rw [matchPlace_eq (Nat.le_of_lt hi) rfl rfl, Encoder.literalAt_eq]
  refine hbit.bind ?_
  rw [if_pos rfl]
  exact (decodes_literal hbit.sound hi hlimit).bind_pure rfl

/-- A literal makes the interval smaller by one bit at least. -/
theorem width_literalAt_le (hs : s.Sound) (hi : i < data.size) :
    (Encoder.literalAt data i s).writer.width ≤ 1009 / 1024 * s.writer.width := by
  have hplace := matchPlace_lt hs i
  have hrest := (decodes_literal (hs.bit hplace false) hi (Nat.le_refl _)).refines.width_le
  rw [Encoder.literalAt_eq]
  exact hrest.trans (RangeWriter.width_bit_le hs.writer (hs.likely _ hplace) false)

/-! ## The end -/

/-- A match at the distance of the end marker, where the data have come to their end. -/
theorem fresh_of_finished {l d : Nat} {m m₁ m₂ : Machine}
    (hl : length Model.matchLength positionState setting m = .ok (l, m₁))
    (hd : distance l setting m₁ = .ok (d, m₂)) (hmarker : d = endMarker)
    (hfinished : (decide (m₂.code = 0) && decide (m₂.input.size ≤ m₂.at_)) = true) :
    ∃ m', fresh positionState setting m = .ok (true, m') ∧ m'.out = m₂.out := by
  refine ⟨{ m₂ with
    rep0 := d, rep1 := m₂.rep0, rep2 := m₂.rep1, rep3 := m₂.rep2
    state := if m₂.state < 7 then 7 else 10 }, ?_, rfl⟩
  rw [fresh, Capping.Obeys.bind_apply, hl]
  dsimp only
  rw [Capping.Obeys.bind_apply, hd]
  change (if d = endMarker then (isFinished >>= fun finished => if finished then pure true else _)
    else _ : Decoding Bool) setting _ = _
  rw [if_pos hmarker, Capping.Obeys.bind_apply]
  change (if (decide (m₂.code = 0) && decide (m₂.input.size ≤ m₂.at_)) = true then
    (pure true : Decoding Bool) else _) setting _ = _
  rw [if_pos hfinished]
  rfl

/-- A symbol that is a match at a new distance. -/
theorem symbol_of_fresh {m m₁ m₂ m₃ : Machine} {last : Bool}
    (hmatch : bit (Model.isMatch + 16 * m.state +
      m.out.size % (1 <<< setting.properties.position)) setting m = .ok (1, m₁))
    (hrep : bit (Model.isRep + m.state) setting m₁ = .ok (0, m₂))
    (hfresh : fresh (m.out.size % (1 <<< setting.properties.position)) setting m₂ =
      .ok (last, m₃)) : symbol setting m = .ok (last, m₃) := by
  change (bit (Model.isMatch + 16 * m.state + m.out.size % (1 <<< setting.properties.position)) >>=
    fun b => if b = 0 then _ else bit (Model.isRep + m.state) >>= fun b => if b = 0 then
      fresh (m.out.size % (1 <<< setting.properties.position)) else _ : Decoding Bool) setting m = _
  rw [Capping.Obeys.bind_apply, hmatch]
  dsimp only
  rw [if_neg Nat.one_ne_zero, Capping.Obeys.bind_apply, hrep]
  dsimp only
  rw [if_pos rfl, hfresh]

/-- The bits of the end marker, one part after the other. -/
theorem decodes_marked (setting : Setting) (out : ByteArray) (hs : s.Sound) (i : Nat) : ∃ s₁ s₂ s₃,
    Decodes setting (bit (Model.isMatch + i % Encoder.positionStates)) s out 1 s₁ out ∧
      Decodes setting (bit Model.isRep) s₁ out 0 s₂ out ∧
      Decodes setting (length Model.matchLength (i % Encoder.positionStates)) s₂ out 0 s₃ out ∧
      Decodes setting (distance 0) s₃ out endMarker (Encoder.marked s i) out ∧
      (Encoder.marked s i).writer.width ≤ 1 / 256 * s₃.writer.width := by
  have hstate : i % Encoder.positionStates < Encoder.positionStates := Nat.mod_lt i (by decide)
  have hrep : Model.isRep < Model.literals := by decide
  have hfirst : Decodes setting (bit (Model.isMatch + i % Encoder.positionStates)) s out 1 _ out :=
    decodes_bit hs (matchPlace_lt hs i) true
  have hsize := hfirst.sound.size
  have hsecond : Decodes setting (bit Model.isRep) _ out 0 _ out :=
    decodes_bit hfirst.sound (by omega) false
  have hlength : Decodes setting (length Model.matchLength (i % Encoder.positionStates)) _ out 0 _
      out := decodes_length hsecond.sound hstate
  exact ⟨_, _, _, hfirst, hsecond, hlength, decodes_distance hlength.sound⟩

/-- The end marker leaves almost nothing of the interval. -/
theorem refines_marked (hs : s.Sound) (i : Nat) :
    s.writer.Refines (Encoder.marked s i).writer ∧
      (Encoder.marked s i).writer.width ≤ 1 / 256 * s.writer.width := by
  obtain ⟨s₁, s₂, s₃, hfirst, hsecond, hlength, hdistance, hwidth⟩ :=
    decodes_marked ⟨Encoder.properties, 0⟩ .empty hs i
  have hbefore := (hfirst.refines.trans hsecond.refines).trans hlength.refines
  have hle := hbefore.width_le
  exact ⟨hbefore.trans hdistance.refines, by linarith⟩

/-- All data are used up, and they lie at the lower end of the interval. -/
structure Ends (w : RangeWriter) (input : ByteArray) : Prop where
  within : w.Within input
  offset : w.offset input = 0
  size_le : input.size ≤ w.position

theorem symbol_ends {input : ByteArray} {limit : Nat} (hs : s.Sound) (hi : i ≤ data.size)
    (h : Ends (Encoder.marked s i).writer input) : ∃ m,
      symbol ⟨Encoder.properties, limit⟩ (.follows input s (firstBytes data i)) = .ok (true, m) ∧
        m.out = firstBytes data i := by
  obtain ⟨s₁, s₂, s₃, hfirst, hsecond, hlength, hdistance, -⟩ :=
    decodes_marked ⟨Encoder.properties, limit⟩ (firstBytes data i) hs i
  have hwithin₃ := hdistance.refines.within input h.within
  have hwithin₂ := hlength.refines.within input hwithin₃
  have hwithin₁ := hsecond.refines.within input hwithin₂
  have hfinished : (decide ((Encoder.marked s i).writer.offset input = 0) &&
      decide (input.size ≤ (Encoder.marked s i).writer.position)) = true := by
    rw [h.offset, decide_eq_true h.size_le]
    rfl
  obtain ⟨m, hm, hout⟩ := fresh_of_finished (hlength.ok input hwithin₃)
    (hdistance.ok input h.within) rfl hfinished
  have hstate : (firstBytes data i).size % (1 <<< Encoder.properties.position) =
      i % Encoder.positionStates := by
    rw [size_firstBytes hi]
    rfl
  refine ⟨m, symbol_of_fresh ?_ (hsecond.ok input hwithin₂) ?_, hout⟩
  · rw [matchPlace_eq hi rfl rfl]
    exact hfirst.ok input hwithin₁
  · change fresh ((firstBytes data i).size % (1 <<< Encoder.properties.position)) _ _ = _
    rw [hstate]
    exact hm

end Decoding
end CollectionDelta.Lzma
