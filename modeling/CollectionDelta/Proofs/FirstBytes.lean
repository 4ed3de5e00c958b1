import Mathlib.Data.List.Basic

/-!
Byte arrays by their first bytes.

* `getElem?_toList`, `foldl_toList`: a byte array as the list of its bytes.
* `firstBytes`: the output of a reading that has come to a position of the data.
-/

namespace CollectionDelta

variable {data : ByteArray} {n : Nat}

theorem toList_length (data : ByteArray) : data.data.toList.length = data.size := rfl

theorem get!_eq (data : ByteArray) (i : Nat) : data.get! i = data.data.toList[i]! := by
  obtain ⟨⟨bytes⟩⟩ := data
  exact List.getElem!_toArray

theorem getElem?_toList (h : n < data.size) : data.data.toList[n]? = some (data.get! n) := by
  rw [get!_eq, List.getElem!_eq_getElem?_getD, List.getElem?_eq_getElem h]
  rfl

theorem foldlM_loop_toList {β : Type} (f : β → UInt8 → β) (data : ByteArray) {j k : Nat}
    (h : j + k = data.size) (b : β) :
    (ByteArray.foldlM.loop (m := Id) (fun b x => pure (f b x)) data data.size (Nat.le_refl _) k j
      b).run = (data.data.toList.drop j).foldl f b := by
  induction k generalizing j b with
  | zero =>
    have hdrop : data.data.toList.drop j = [] :=
      List.drop_eq_nil_of_le (by rw [toList_length]; omega)
    rw [hdrop, ByteArray.foldlM.loop]
    split <;> rfl
  | succ k ih =>
    have hlt : j < data.data.toList.length := by rw [toList_length]; omega
    rw [ByteArray.foldlM.loop, dif_pos (by omega), List.drop_eq_getElem_cons hlt]
    exact ih (by omega) _

theorem foldl_toList {β : Type} (f : β → UInt8 → β) (b : β) (data : ByteArray) :
    data.foldl f b = data.data.toList.foldl f b := by
  rw [ByteArray.foldl, ByteArray.foldlM, dif_pos (Nat.le_refl _)]
  exact foldlM_loop_toList f data (Nat.zero_add _) b

/-! ## The first bytes -/

def firstBytes (data : ByteArray) (n : Nat) : ByteArray := ⟨(data.data.toList.take n).toArray⟩

theorem firstBytes_zero (data : ByteArray) : firstBytes data 0 = ByteArray.empty := rfl

theorem firstBytes_size (data : ByteArray) : firstBytes data data.size = data := by
  rw [firstBytes, ← toList_length, List.take_length]

theorem size_firstBytes (h : n ≤ data.size) : (firstBytes data n).size = n := by
  change (data.data.toList.take n).length = n
  rw [List.length_take, toList_length]
  omega

theorem get!_firstBytes (data : ByteArray) {k : Nat} (h : k < n) :
    (firstBytes data n).get! k = data.get! k := by
  rw [get!_eq, get!_eq, firstBytes]
  simp only [List.getElem!_eq_getElem?_getD, List.getElem?_take_of_lt h]

theorem push_firstBytes (h : n < data.size) :
    (firstBytes data n).push (data.get! n) = firstBytes data (n + 1) := by
  refine ByteArray.ext (Array.toList_inj.1 ?_)
  simp [firstBytes, List.take_add_one, getElem?_toList h]

end CollectionDelta
