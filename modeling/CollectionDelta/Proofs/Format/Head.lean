import CollectionDelta.Proofs.Format.Arrival
import CollectionDelta.Proofs.Varint.Exact

/-!
Heads are decoded exactly, and refused for the first field that is wrong.

* `Decoder.Fails`: how a decoder fails where some bytes are all there is; it passes to decoders in
  sequence (`Fails.bind`, `Accepts.fails_bind`).
* `Header.Misfit`: the first field of some bytes that is no field of a head, and how it is told;
  `fails_decode` says that decoding tells it, and `written_or_misfit` that bytes without one begin
  with a head.
* `Header.readBack`: the head that can be read back of what is written for one; `written_readBack`
  says that it can if the flags are known, and `misfit_encode` what is wrong if they are not.
* `Header.head_exact`: what is decoded of any bytes.
-/

namespace CollectionDelta

open Decoder

/-! ## Decoders that fail -/

namespace Decoder

variable {α β : Type} {d : Decoder α} {f : α → Decoder β} {b : Bytes} {err : FormatError}

/-- Where the bytes `b` are all there is, the decoder fails with `err`. -/
def Fails (d : Decoder α) (b : Bytes) (err : FormatError) : Prop :=
  ∃ k, d.Gives b .ended (.error err) k

theorem Fails.result_eq (h : d.Fails b err) {s : Stream} {n : Nat} (hs : s.Holds n b .ended) :
    (d s).1 = .error err := by
  obtain ⟨k, h⟩ := h
  obtain ⟨t, hd, -⟩ := h.run hs
  rw [hd]

theorem fails_fail (err : FormatError) (b : Bytes) : (fail err : Decoder α).Fails b err :=
  ⟨0, gives_error (Nat.zero_le b.length) fun hs => ⟨_, rfl, hs.delivered_eq⟩⟩

theorem fails_exactly {want : Nat} (h : b.length < want) :
    (exactly want).Fails b (.io .shortRead) := by
  refine ⟨b.length, gives_error (Nat.le_refl _) fun hs => ?_⟩
  obtain ⟨t, hr, ht⟩ := Stream.exactly_short h hs
  exact ⟨t, by rw [exactly, ofRead, hr], ht.delivered_eq⟩

theorem Fails.bind (h : d.Fails b err) : (d >>= f).Fails b err := by
  obtain ⟨k, h⟩ := h
  exact ⟨k, h.bind_error⟩

theorem fails_varint {fault : Fault} (h : Varint.Refused b fault) :
    varint.Fails b (.io fault) := by
  obtain ⟨r, k, hr⟩ := determined_varint b .ended
  obtain ⟨t, hd, -⟩ := hr.run (Stream.holds_ofBytes b)
  obtain ⟨t', hread⟩ := Varint.read_refused h (Stream.holds_ofBytes b)
  rw [varint, ofRead, hread] at hd
  obtain ⟨rfl, -⟩ := Prod.mk.inj hd
  exact ⟨k, hr⟩

/-- What comes first is decoded, and then the decoder of the rest fails. -/
theorem Accepts.fails_bind {G : Form α} {a : α} {u : Bytes} (h : d.Accepts G) (hu : G a u)
    (hf : (f a).Fails b err) : (d >>= f).Fails (u ++ b) err := by
  obtain ⟨k, hf⟩ := hf
  have hle : u.length ≤ (u ++ b).length := by simp
  have hd : d.Gives (u ++ b) .ended (.ok a) u.length := by
    refine gives_ok hle fun hs => ?_
    obtain ⟨t, hdt, ht⟩ := h.complete hu hs
    rw [List.drop_left]
    exact ⟨t, hdt, ht⟩
  refine ⟨u.length + k, hd.bind ?_⟩
  rw [List.drop_left]
  exact hf

end Decoder

/-! ## The first field that is wrong -/

namespace Header

/-- The first field that keeps bytes from beginning with a head: it is cut short, or it is none of
its values. -/
inductive Misfit : Bytes → FormatError → Prop
  | shortMagic {b : Bytes} (h : b.length < 4) : Misfit b (.io .shortRead)
  | magic {found rest : Bytes} (hlen : found.length = 4) (h : found ≠ [0x52, 0x53, 0x44, 0x46]) :
      Misfit (found ++ rest) (.invalid (.wrongMagic found))
  | shortFlags {b : Bytes} (h : b.length < 2) :
      Misfit ([0x52, 0x53, 0x44, 0x46] ++ b) (.io .shortRead)
  | version {v flags : UInt8} {rest : Bytes} (h : v ≠ 0x01) :
      Misfit ([0x52, 0x53, 0x44, 0x46] ++ ([v, flags] ++ rest)) (.unsupported (.version v))
  | flags {flags : UInt8} {rest : Bytes} (h : 4 ≤ flags.toNat) :
      Misfit ([0x52, 0x53, 0x44, 0x46] ++ ([0x01, flags] ++ rest)) (.invalid (.unknownFlags flags))
  | shortCodec {flags : UInt8} (h : flags.toNat < 4) (hcodec : compressedFlag flags = true) :
      Misfit ([0x52, 0x53, 0x44, 0x46] ++ ([0x01, flags] ++ [])) (.io .shortRead)
  | count {flags : UInt8} {codec : Option UInt8} {b : Bytes} {f : Fault} (h : flags.toNat < 4)
      (hcodec : codec.isSome = compressedFlag flags) (hf : Varint.Refused b f) :
      Misfit ([0x52, 0x53, 0x44, 0x46] ++ ([0x01, flags] ++ (codec.toList ++ b))) (.io f)

theorem fails_readFlags {v flags : UInt8} {rest : Bytes} {err : FormatError}
    (h : (if v ≠ version then Decoder.fail (.unsupported (.version v))
      else if flagsKnown flags then pure flags
      else Decoder.invalid (.unknownFlags flags) : Decoder UInt8).Fails rest err) :
    readFlags.Fails ([v, flags] ++ rest) err :=
  (accepts_exactly 2).fails_bind (a := [v, flags]) ⟨rfl, rfl⟩ h

theorem fails_decode {b : Bytes} {err : FormatError} (h : Misfit b err) : decode.Fails b err := by
  cases h with
  | shortMagic h => exact (fails_exactly h).bind.bind
  | @magic found rest hlen h =>
    refine Fails.bind ((accepts_exactly 4).fails_bind (a := found) ⟨rfl, hlen⟩ ?_)
    rw [if_neg (show ¬ found = CollectionDelta.magic from h)]
    exact fails_fail _ _
  | shortFlags h => exact accepts_readMagic.fails_bind (a := ()) rfl (fails_exactly h).bind.bind
  | @version v flags rest h =>
    refine accepts_readMagic.fails_bind (a := ()) rfl (Fails.bind (fails_readFlags ?_))
    rw [if_pos (show v ≠ Header.version from h)]
    exact fails_fail _ _
  | @flags flags rest h =>
    refine accepts_readMagic.fails_bind (a := ()) rfl (Fails.bind (fails_readFlags ?_))
    have hunknown : ¬ flagsKnown flags = true := by simpa [flagsKnown] using h
    rw [if_neg (by decide), if_neg hunknown]
    exact fails_fail _ _
  | @shortCodec flags h hcodec =>
    refine accepts_readMagic.fails_bind (a := ()) rfl ?_
    refine accepts_readFlags.fails_bind ⟨rfl, h⟩ (Fails.bind ?_)
    rw [readCodec, if_pos hcodec]
    exact (fails_exactly Nat.zero_lt_one).bind.bind
  | @count flags codec b f h hcodec hf =>
    refine accepts_readMagic.fails_bind (a := ()) rfl ?_
    refine accepts_readFlags.fails_bind ⟨rfl, h⟩ ?_
    refine (accepts_readCodec flags).fails_bind ⟨rfl, hcodec⟩ (Fails.bind ?_)
    exact fails_varint hf

/-- Fields that are right up to the count begin a head, or the count does not fit. -/
theorem written_or_misfit_of_codec {flags : UInt8} (h : flags.toNat < 4) (codec : Option UInt8)
    (hcodec : codec.isSome = compressedFlag flags) (b : Bytes) :
    let fields := [0x52, 0x53, 0x44, 0x46] ++ ([0x01, flags] ++ (codec.toList ++ b))
    (∃ h w rest, fields = w ++ rest ∧ Written h w) ∨ ∃ err, Misfit fields err := by
  rcases Varint.written_or_refused b with ⟨n, w, rest, rfl, hw⟩ | ⟨f, hf⟩
  · exact .inl ⟨⟨flags, codec, n⟩, _, rest, by simp, w, rfl, h, hcodec, hw⟩
  · exact .inr ⟨.io f, .count h hcodec hf⟩

theorem written_or_misfit (b : Bytes) :
    (∃ h w rest, b = w ++ rest ∧ Written h w) ∨ ∃ err, Misfit b err := by
  by_cases hshort : b.length < 4
  · exact .inr ⟨_, .shortMagic hshort⟩
  obtain ⟨found, b, rfl, hlen⟩ : ∃ found rest, b = found ++ rest ∧ found.length = 4 :=
    ⟨b.take 4, b.drop 4, (List.take_append_drop 4 b).symm,
      List.length_take_of_le (Nat.le_of_not_lt hshort)⟩
  by_cases hmagic : found = [0x52, 0x53, 0x44, 0x46]
  · subst hmagic
    match b with
    | [] => exact .inr ⟨_, .shortFlags Nat.zero_lt_two⟩
    | [_] => exact .inr ⟨_, .shortFlags Nat.one_lt_two⟩
    | v :: flags :: b =>
      by_cases hv : v = 0x01
      · subst hv
        by_cases hflags : flags.toNat < 4
        · cases hcodec : compressedFlag flags with
          | false => exact written_or_misfit_of_codec hflags none hcodec.symm b
          | true =>
            cases b with
            | nil => exact .inr ⟨_, .shortCodec hflags hcodec⟩
            | cons c b => exact written_or_misfit_of_codec hflags (some c) hcodec.symm b
        · exact .inr ⟨_, .flags (Nat.le_of_not_lt hflags)⟩
      · exact .inr ⟨_, .version hv⟩
  · exact .inr ⟨_, .magic hlen hmagic⟩

/-! ## Heads that are written -/

/-- What a head can be read back as: its codec is there if and only if the flags say so. -/
def readBack (h : Header) : Header :=
  { h with codec := if h.isCompressed then some (h.codec.getD 0) else none }

theorem readBack_eq_self_iff {h : Header} : h.readBack = h ↔ h.codec.isSome = h.isCompressed := by
  obtain ⟨flags, codec, count⟩ := h
  rw [readBack, Header.mk.injEq, isCompressed]
  cases codec <;> cases compressedFlag flags <;> simp

theorem written_readBack {h : Header} (hflags : h.flags.toNat < 4) (hcount : h.count < 2 ^ 64) :
    Written h.readBack h.encode := by
  refine ⟨Varint.encode h.count, ?_, hflags, ?_, Varint.written_encode hcount⟩
  · rw [encode, pieces, readBack]
    cases h.isCompressed <;> simp [magic, version]
  · show (if h.isCompressed then some (h.codec.getD 0) else none).isSome = h.isCompressed
    cases h.isCompressed <;> rfl

theorem misfit_encode {h : Header} (hflags : 4 ≤ h.flags.toNat) (rest : Bytes) :
    Misfit (h.encode ++ rest) (.invalid (.unknownFlags h.flags)) := by
  rw [encode, pieces, List.flatten_append, List.flatten_append, List.append_assoc,
    List.append_assoc]
  exact .flags hflags

/-! ## All bytes -/

/-- A head is read back from what is written for it if and only if its flags are known, with a codec
if and only if they say so. Of any bytes a head is decoded if and only if they begin with a form of
it, of which nothing else is taken; otherwise the first field that is wrong is told. -/
theorem head_exact {s : Stream} {n : Nat} {b : Bytes} (hs : s.Holds n b .ended) :
    (∀ h rest, h.count < 2 ^ 64 → b = encode h ++ rest →
      ((∃ h', (decode s).1 = .ok h') ↔ h.flags.toNat < 4) ∧
      (h.flags.toNat < 4 → (decode s).1 = .ok h.readBack ∧
        (decode s).2.Holds (n + h.encode.length) rest .ended) ∧
      (h.flags.toNat < 4 → ((decode s).1 = .ok h ↔ h.codec.isSome = h.isCompressed))) ∧
    (∀ h, (decode s).1 = .ok h ↔ ∃ w rest, b = w ++ rest ∧ Written h w) ∧
    (∀ h w rest, b = w ++ rest → Written h w →
      (decode s).2.Holds (n + w.length) rest .ended) ∧
    ∀ err, (decode s).1 = .error err ↔ Misfit b err := by
  have hwritten : ∀ {h w rest}, b = w ++ rest → Written h w → (decode s).1 = .ok h ∧
      (decode s).2.Holds (n + w.length) rest .ended := by
    rintro h w rest rfl hw
    obtain ⟨t, hd, ht⟩ := accepts_decode.complete hw hs
    rw [hd]
    exact ⟨rfl, ht⟩
  have hmisfit : ∀ {err}, Misfit b err → (decode s).1 = .error err := fun herr =>
    (fails_decode herr).result_eq hs
  refine ⟨fun h rest hcount hb => ?_, fun h => ⟨fun hd => ?_, ?_⟩, fun h w rest hb hw =>
    (hwritten hb hw).2, fun err => ⟨fun hd => ?_, hmisfit⟩⟩
  · have hback := fun hflags => hwritten hb (written_readBack hflags hcount)
    refine ⟨⟨?_, fun hflags => ⟨_, (hback hflags).1⟩⟩, hback, fun hflags => ?_⟩
    · rintro ⟨h', hd⟩
      refine Nat.lt_of_not_le fun hflags => ?_
      rw [hmisfit (hb ▸ misfit_encode hflags rest)] at hd
      cases hd
    · rw [(hback hflags).1, Except.ok.injEq]
      exact readBack_eq_self_iff
  · exact accepts_decode.sound hs (Prod.ext hd rfl : decode s = (.ok h, _))
  · rintro ⟨w, rest, hb, hw⟩
    exact (hwritten hb hw).1
  · rcases written_or_misfit b with ⟨h, w, rest, hb, hw⟩ | ⟨err', herr⟩
    · rw [(hwritten hb hw).1] at hd
      cases hd
    · rw [hmisfit herr] at hd
      cases hd
      exact herr

/-- A codec that the flags ask for and that is not given, and one that is missing at the end. -/
theorem head_exact_without_codec :
    let h : Header := ⟨0x03, none, 300⟩
    let s : Stream := .ofBytes (h.encode ++ [7])
    (decode s).1 = .ok ⟨0x03, some 0, 300⟩ ∧ (decode s).1 ≠ .ok h ∧
      (decode s).2.Holds 9 [7] .ended ∧
      (decode (.ofBytes [0x52, 0x53, 0x44, 0x46, 0x01, 0x02])).1 = .error (.io .shortRead) := by
  intro h s
  obtain ⟨hencoded, -⟩ := head_exact (Stream.holds_ofBytes (h.encode ++ [7]))
  obtain ⟨-, -, -, hcut⟩ := head_exact (Stream.holds_ofBytes [0x52, 0x53, 0x44, 0x46, 0x01, 0x02])
  obtain ⟨-, hback, hsame⟩ := hencoded h [7] (by decide) rfl
  have hlength : h.encode.length = 9 := by
    simp [h, encode, pieces, isCompressed, compressedFlag, magic, Varint.encode, Varint.leading]
  have hcodec : h.readBack = ⟨0x03, some 0, 300⟩ := by decide
  rw [← hcodec]
  obtain ⟨hread, hleft⟩ := hback (by decide)
  rw [hlength] at hleft
  refine ⟨hread, fun heq => ?_, hleft, (hcut _).2 (.shortCodec (by decide) rfl)⟩
  exact absurd ((hsame (by decide)).1 heq) (by decide)

end Header
end CollectionDelta
