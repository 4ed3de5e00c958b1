/-!
Failures of reads, writes and look-ups: a kind, on which decisions are made, and a text.
-/

namespace CollectionDelta

inductive FaultKind
  | notFound | permissionDenied | connectionReset | brokenPipe | alreadyExists | wouldBlock
  | invalidInput | invalidData | timedOut | writeZero | storageFull | interrupted
  | unexpectedEof | notADirectory | isADirectory | linkLoop | invalidFileName | other
  deriving DecidableEq, Repr, Inhabited

structure Fault where
  kind : FaultKind
  message : String
  deriving DecidableEq, Repr, Inhabited

namespace Fault

/-- A read that may be tried again. -/
def isInterruption (f : Fault) : Bool := f.kind = .interrupted

def shortRead : Fault := ⟨.unexpectedEof, "failed to fill whole buffer"⟩
def nothingWritten : Fault := ⟨.writeZero, "failed to write whole buffer"⟩
def full : Fault := ⟨.storageFull, "write limit reached"⟩

end Fault
end CollectionDelta
