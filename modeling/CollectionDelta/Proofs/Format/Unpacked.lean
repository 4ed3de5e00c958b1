import CollectionDelta.Proofs.Deflate.Capped
import CollectionDelta.Proofs.Format.Grammar
import CollectionDelta.Proofs.Lzma.Capped

/-!
What the built-in codecs unpack, for a length that is only said to be right.

* `Codec.Unlimited`: a built-in codec, and what its decoder makes of stored bytes if no limit cuts
  it.
* `Unlimited.length_le`: not more than a byte beyond the length is unpacked.
* `Unlimited.decompress_of_whole`: what is not longer than that is.
* `Unlimited.unpack_eq_ok_iff`: a payload is accepted if it is all that the decoder makes of the
  stored bytes, and has the length; `Unlimited.unpack_longer` says that a longer one is refused.
-/

namespace CollectionDelta.Codec

variable {stored raw out : Bytes} {n : Nat}

theorem data_array (b : Bytes) : (array b).data.toList = b := rfl

/-- A built-in codec, and the bytes that stored ones stand for: all that its decoder gives out, if
it is not cut. -/
inductive Unlimited : Backend → (Bytes → Bytes → Prop) → Prop
  | zlib (level : Nat) :
      Unlimited (zlib level) fun stored raw => Deflate.Whole (array stored) (array raw)
  | lzma : Unlimited lzma fun stored raw => Lzma.Whole (array stored) (array raw)

theorem cap_le (n : Nat) : cap n ≤ n + 1 := Nat.min_le_left _ _

/-- A limit is beyond what has not more than the declared length. -/
theorem lt_cap (hn : raw.length ≤ n) (hmem : raw.length < maxLength) : raw.length < cap n :=
  Nat.lt_min.2 ⟨Nat.lt_succ_of_le hn, hmem⟩

theorem inflated_eq_ok_iff : inflated stored n = .ok raw ↔
    ∃ found, Deflate.inflate (array stored) (cap n) = .ok found ∧
      raw = found.data.toList.take (cap n) := by
  unfold inflated
  cases Deflate.inflate (array stored) (cap n) with
  | error e => cases e <;> simp
  | ok found => simp [eq_comm]

theorem unpackedLzma_eq_ok_iff : unpackedLzma stored n = .ok raw ↔
    Lzma.decode (array stored) (cap n) = .ok (array raw) ∧ raw.length ≤ cap n := by
  unfold unpackedLzma
  cases Lzma.decode (array stored) (cap n) with
  | error e => cases e <;> simp
  | ok found =>
    have harray : found = array raw ↔ found.data.toList = raw :=
      ⟨fun h => h ▸ rfl, fun h => h ▸ rfl⟩
    have hsize : found.data.toList.length = found.size := rfl
    dsimp only
    rw [Except.ok.injEq, harray]
    split
    · next hlong =>
      refine ⟨nofun, ?_⟩
      rintro ⟨rfl, hle⟩
      omega
    · next hshort =>
      rw [Except.ok.injEq]
      refine ⟨?_, And.left⟩
      rintro rfl
      exact ⟨rfl, by omega⟩

namespace Unlimited

variable {backend : Backend} {whole : Bytes → Bytes → Prop} {d : RecordDecoder}

theorem unique (h : Unlimited backend whole) (hraw : whole stored raw) (hout : whole stored out) :
    raw = out := by
  have hdata {b b' : Bytes} (heq : array b = array b') : b = b' :=
    congrArg (fun b : ByteArray => b.data.toList) heq
  cases h with
  | zlib level => exact hdata (Deflate.Whole.unique hraw hout)
  | lzma => exact hdata (Lzma.Whole.unique hraw hout)

theorem length_le (h : Unlimited backend whole) (hok : backend.decompress stored n = .ok raw) :
    raw.length ≤ n + 1 := by
  refine Nat.le_trans ?_ (cap_le n)
  cases h with
  | zlib level =>
    obtain ⟨found, -, rfl⟩ := inflated_eq_ok_iff.1 hok
    exact List.length_take_le ..
  | lzma => exact (unpackedLzma_eq_ok_iff.1 hok).2

/-- What the limit does not cut is unpacked. -/
theorem decompress_of_whole (h : Unlimited backend whole) (hwhole : whole stored raw)
    (hle : raw.length ≤ cap n) : backend.decompress stored n = .ok raw := by
  cases h with
  | zlib level =>
    obtain ⟨found, hfound, htake⟩ := Deflate.Whole.inflate hwhole (cap n)
    refine inflated_eq_ok_iff.2 ⟨found, hfound, ?_⟩
    rw [htake, data_array, List.take_of_length_le hle]
  | lzma =>
    refine unpackedLzma_eq_ok_iff.2 ⟨?_, hle⟩
    rw [Lzma.Whole.decode hwhole]
    exact if_neg (Nat.not_lt.2 hle)

/-- What has at most the declared length is unpacked as it is. -/
theorem decompress_eq_ok_iff (h : Unlimited backend whole) (hn : raw.length ≤ n)
    (hmem : raw.length < maxLength) :
    backend.decompress stored n = .ok raw ↔ whole stored raw := by
  have hlt := lt_cap hn hmem
  refine ⟨fun hok => ?_, fun hwhole => h.decompress_of_whole hwhole (Nat.le_of_lt hlt)⟩
  cases h with
  | zlib level =>
    obtain ⟨found, hfound, rfl⟩ := inflated_eq_ok_iff.1 hok
    -- less than the limit has been cut off at the limit, which is nothing
    have hsize : found.data.toList.length < cap n := by
      rw [List.length_take] at hlt
      omega
    rw [List.take_of_length_le (Nat.le_of_lt hsize)]
    exact ⟨cap n, hsize, hfound⟩
  | lzma => exact ⟨_, (unpackedLzma_eq_ok_iff.1 hok).1⟩

/-- Packed bytes are accepted as a payload of the declared length if they stand for it. A payload
has less than 2^64 - 1 bytes, as all that is in memory. -/
theorem unpack_eq_ok_iff (h : Unlimited backend whole) (hd : d.backend = some backend)
    (name : String) (hmem : raw.length < maxLength) :
    d.unpack name Encoding.packedIndicator n stored = .ok raw ↔
      whole stored raw ∧ raw.length = n := by
  rw [RecordDecoder.unpack_eq_ok]
  constructor
  · rintro ⟨rfl, ⟨hraw, -⟩ | ⟨-, backend', hb, hok⟩⟩
    · cases hraw
    · cases hd.symm.trans hb
      exact ⟨(h.decompress_eq_ok_iff (Nat.le_refl _) hmem).1 hok, rfl⟩
  · rintro ⟨hwhole, rfl⟩
    exact ⟨rfl, .inr ⟨rfl, backend, hd, (h.decompress_eq_ok_iff (Nat.le_refl _) hmem).2 hwhole⟩⟩

/-- What the stored bytes stand for is never cut down to the declared length. -/
theorem unpack_longer (h : Unlimited backend whole) (hd : d.backend = some backend)
    (name : String) (hn : n < maxLength) (hwhole : whole stored out) (hlong : n < out.length) :
    ∃ e, d.unpack name Encoding.packedIndicator n stored = .error e := by
  cases hunpack : d.unpack name Encoding.packedIndicator n stored with
  | error e => exact ⟨e, rfl⟩
  | ok raw =>
    have hlen := (RecordDecoder.unpack_eq_ok.1 hunpack).1
    obtain ⟨hraw, -⟩ := (h.unpack_eq_ok_iff hd name (hlen ▸ hn)).1 hunpack
    rw [h.unique hraw hwhole] at hlen
    omega

end Unlimited
end CollectionDelta.Codec
