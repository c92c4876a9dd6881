/-!
# Shutdown signals

A signal is open until it is closed, and closed for good from then on. Only the call that closes
it is told so.
-/

namespace VirtualMesh

structure Shutdown where
  closed : Bool
  deriving DecidableEq

namespace Shutdown

def opened : Shutdown := ⟨false⟩

/-- Whether this call closed the signal, and the signal after it. -/
def close (s : Shutdown) : Bool × Shutdown := (!s.closed, ⟨true⟩)

/-- How many of `n` calls, one after another in any order, close the signal. -/
def race : Nat → Shutdown → Nat × Shutdown
  | 0, s => (0, s)
  | n + 1, s =>
    let (won, s) := s.close
    let (wins, s) := race n s
    ((if won then 1 else 0) + wins, s)

end Shutdown

end VirtualMesh
