/-!
# Timers

Independent timers on one time line fire in the order of their times. Timers that are due from
the start fire at once, in the order in which they were set. By how much a timer is late, and
whether timers run side by side, is left out here.
-/

namespace VirtualMesh.Timers

/-- The order in which timers fire, given with their distances from the start. -/
def firingOrder {α : Type} (ts : List (Int × α)) : List (Int × α) :=
  ts.mergeSort fun a b => max a.1 0 ≤ max b.1 0

theorem firingOrder_perm {α : Type} (ts : List (Int × α)) : (firingOrder ts).Perm ts :=
  List.mergeSort_perm _ _

end VirtualMesh.Timers
