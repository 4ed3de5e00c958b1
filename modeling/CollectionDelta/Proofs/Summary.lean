import CollectionDelta.Record
import Mathlib.Algebra.BigOperators.Group.List.Basic
import Mathlib.Algebra.Ring.Nat

/-!
What the summary of a list of records counts.

* `Summary.ofRecords_eq`: the records of each kind, and the bytes that all of them keep.
* `Summary.total_ofRecords`: every record is of one kind.
-/

namespace CollectionDelta.Summary

theorem foldl_count (s : Summary) (rs : List Record) : rs.foldl count s =
    ⟨s.added + rs.countP (·.kind = .added), s.removed + rs.countP (·.kind = .removed),
      s.modified + rs.countP (·.kind = .modified),
      s.retainedBytes + (rs.map Record.size).sum⟩ := by
  induction rs generalizing s with
  | nil => rfl
  | cons r rs ih =>
    rw [List.foldl_cons, ih]
    cases r <;> simp [count, Record.kind, Nat.add_assoc, Nat.add_comm, Nat.add_left_comm]

theorem ofRecords_eq (rs : List Record) : ofRecords rs =
    ⟨rs.countP (·.kind = .added), rs.countP (·.kind = .removed), rs.countP (·.kind = .modified),
      (rs.map Record.size).sum⟩ := by
  rw [ofRecords, foldl_count]
  simp

theorem total_count (s : Summary) (r : Record) : (s.count r).total = s.total + 1 := by
  cases r with
  | added => simp only [count, total, Record.kind]; omega
  | removed => simp only [count, total, Record.kind]; omega
  | modified => rfl

theorem total_ofRecords (rs : List Record) : (ofRecords rs).total = rs.length := by
  have hfold (s : Summary) : (rs.foldl count s).total = s.total + rs.length := by
    induction rs generalizing s with
    | nil => rfl
    | cons r rs ih => rw [List.foldl_cons, ih, total_count, List.length_cons]; omega
  rw [ofRecords, hfold]
  exact Nat.zero_add _

end CollectionDelta.Summary
