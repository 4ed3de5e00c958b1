import CollectionDelta.Collection.Basic
import CollectionDelta.Record

/-!
What a run leaves behind besides its result.

* `Call`: a call on one of the two collections.
* `Remark`: something worth telling, with its `Level` and wording.
* `Note`, `Journal`: calls and remarks in the order in which they came.
* `Traced`: a result with the journal of the run; a failure ends the run and keeps its journal.
-/

namespace CollectionDelta

inductive Call
  | names (side : Side)
  | read (side : Side) (name : String)
  | stream (side : Side) (name : String)
  | close (side : Side)
  deriving DecidableEq, Repr

inductive Level
  | error | warn | info | debug | trace
  deriving DecidableEq, Repr

namespace Level

def rank : Level → Nat
  | .error => 0
  | .warn => 1
  | .info => 2
  | .debug => 3
  | .trace => 4

def name : Level → String
  | .error => "ERROR"
  | .warn => "WARN"
  | .info => "INFO"
  | .debug => "DEBUG"
  | .trace => "TRACE"

end Level

inductive Remark
  | duplicatesCollapsed (count : Nat)
  | reconciling (base derived : Nat)
  | removed (name : String) (bytes : Nat)
  | modified (name : String)
  | added (name : String)
  | compared (summary : Summary)
  | restored (copied restored skipped bytes : Nat)
  | releaseFailed (fault : Fault)
  | scanned (count : Nat) (root : String)
  | skipped (path : String)
  deriving DecidableEq, Repr

namespace Remark

def level : Remark → Level
  | .releaseFailed _ => .warn
  | .duplicatesCollapsed _ => .debug
  | .reconciling _ _ => .debug
  | .compared _ => .debug
  | .restored _ _ _ _ => .debug
  | .scanned _ _ => .debug
  | .removed _ _ => .trace
  | .modified _ => .trace
  | .added _ => .trace
  | .skipped _ => .trace

def message : Remark → String
  | .duplicatesCollapsed n => s!"derived listing has {n} duplicate names; collapsed"
  | .reconciling b d => s!"reconciling {b} base names against {d} derived names"
  | .removed name n => s!"{name}: removed ({n} bytes)"
  | .modified name => s!"{name}: modified"
  | .added name => s!"{name}: added"
  | .compared s =>
    s!"diff: {s.added} added, {s.removed} removed, {s.modified} modified, "
      ++ s!"{s.retainedBytes} base bytes retained"
  | .restored c r s b => s!"restore: {c} copied, {r} restored, {s} skipped, {b} bytes"
  | .releaseFailed f => s!"failed to release collection: {f.message}"
  | .scanned n root => s!"scanned {n} resources under {root}"
  | .skipped path => s!"skipping non-regular entry {path}"

end Remark

inductive Note
  | call (call : Call)
  | remark (remark : Remark)
  deriving DecidableEq, Repr

abbrev Journal := List Note

namespace Journal

def calls (j : Journal) : List Call := j.filterMap fun
  | .call c => some c
  | .remark _ => none

def remarks (j : Journal) : List Remark := j.filterMap fun
  | .remark r => some r
  | .call _ => none

theorem calls_append (j k : Journal) : calls (j ++ k) = calls j ++ calls k := by simp [calls]

theorem remarks_append (j k : Journal) : remarks (j ++ k) = remarks j ++ remarks k := by
  simp [remarks]

end Journal

/-! ## Runs with a journal -/

structure Traced (ε α : Type) where
  journal : Journal
  result : Except ε α

namespace Traced

variable {ε ε' α β : Type}

protected def pure (a : α) : Traced ε α := ⟨[], .ok a⟩

protected def bind (m : Traced ε α) (k : α → Traced ε β) : Traced ε β :=
  match m.result with
  | .ok a => ⟨m.journal ++ (k a).journal, (k a).result⟩
  | .error e => ⟨m.journal, .error e⟩

instance : Monad (Traced ε) where
  pure := Traced.pure
  bind := Traced.bind

def fail (e : ε) : Traced ε α := ⟨[], .error e⟩

def say (r : Remark) : Traced ε Unit := ⟨[.remark r], .ok ()⟩

/-- A call on a collection and its answer. -/
def call (c : Call) (answer : Except ε α) : Traced ε α := ⟨[.call c], answer⟩

def ofExcept (r : Except ε α) : Traced ε α := ⟨[], r⟩

def mapError (f : ε → ε') (m : Traced ε α) : Traced ε' α := ⟨m.journal, m.result.mapError f⟩

@[simp] theorem pure_journal (a : α) : (pure a : Traced ε α).journal = [] := rfl
@[simp] theorem pure_result (a : α) : (pure a : Traced ε α).result = .ok a := rfl

theorem bind_ok {m : Traced ε α} {k : α → Traced ε β} {a : α} (h : m.result = .ok a) :
    m >>= k = ⟨m.journal ++ (k a).journal, (k a).result⟩ := by
  show Traced.bind m k = _
  simp [Traced.bind, h]

theorem bind_error {m : Traced ε α} {k : α → Traced ε β} {e : ε} (h : m.result = .error e) :
    m >>= k = ⟨m.journal, .error e⟩ := by
  show Traced.bind m k = _
  simp [Traced.bind, h]

@[simp] theorem result_bind (m : Traced ε α) (k : α → Traced ε β) :
    (m >>= k).result = m.result.bind fun a => (k a).result := by
  cases h : m.result with
  | ok a => rw [bind_ok h]; rfl
  | error e => rw [bind_error h]; rfl

@[simp] theorem result_fail (e : ε) : (fail e : Traced ε α).result = .error e := rfl
@[simp] theorem result_say (r : Remark) : (say r : Traced ε Unit).result = .ok () := rfl
@[simp] theorem result_ofExcept (r : Except ε α) : (ofExcept r).result = r := rfl
@[simp] theorem result_call (c : Call) (answer : Except ε α) :
    (call c answer).result = answer := rfl
@[simp] theorem result_mapError (f : ε → ε') (m : Traced ε α) :
    (m.mapError f).result = m.result.mapError f := rfl

end Traced
end CollectionDelta
