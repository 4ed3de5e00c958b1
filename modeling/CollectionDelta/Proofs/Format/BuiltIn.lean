import CollectionDelta.Proofs.Deflate.RoundTrip
import CollectionDelta.Proofs.Format.RoundTrip
import CollectionDelta.Proofs.Format.Unpacked
import CollectionDelta.Proofs.Lzma.RoundTrip

/-!
The built-in codecs lose nothing.

* `Unlimited.whole_of_compress`: what is packed stands for the payload.
* `Unlimited.losslessWithin`: payloads with lengths of 64 bits come back whole.
-/

namespace CollectionDelta.Codec.Unlimited

variable {backend : Backend} {whole : Bytes → Bytes → Prop} {raw packed : Bytes}

theorem array_data (b : ByteArray) : array b.data.toList = b := rfl

theorem whole_of_compress (h : Unlimited backend whole)
    (hpacked : backend.compress raw = .ok packed) : whole packed raw := by
  cases h with
  | zlib level =>
    obtain rfl : (Deflate.compress (min level 9) (array raw)).data.toList = packed :=
      Except.ok.inj hpacked
    rw [array_data]
    exact Deflate.whole_compress (min level 9) (array raw)
  | lzma =>
    obtain rfl : (Lzma.encode (array raw)).data.toList = packed := Except.ok.inj hpacked
    rw [array_data]
    exact Lzma.whole_encode (array raw)

theorem compress_ok (h : Unlimited backend whole) (raw : Bytes) :
    ∃ packed, backend.compress raw = .ok packed := by
  cases h <;> exact ⟨_, rfl⟩

theorem losslessWithin (h : Unlimited backend whole) : backend.LosslessWithin (2 ^ 64) where
  compress_ok raw _ := h.compress_ok raw
  decompress_pack raw packed hraw hpack := by
    have hpacked := (Backend.pack_eq_some.1 hpack).2.1
    have hcap : raw.length ≤ cap raw.length := Nat.le_min.2 ⟨Nat.le_succ _, Nat.le_of_lt_succ hraw⟩
    exact h.decompress_of_whole (h.whole_of_compress hpacked) hcap

end CollectionDelta.Codec.Unlimited
