/-!
# Faults

A step that would need a number outside the range of its type does not happen: it stops with
a `Fault`, and nothing that it started is kept.
-/

namespace VirtualMesh

inductive Fault where
  /-- A 64-bit count would pass its last value. -/
  | countOverflow
  /-- A clock value would leave the range of instants. -/
  | instantOverflow
  /-- A quotient is no 64-bit delay. -/
  | quotientOverflow
  /-- Tasks that are due remain after the number of runs that was allowed. -/
  | unsettled
  deriving DecidableEq

end VirtualMesh
