import VirtualMesh.Scheduler.Basic

/-!
# Plans

A plan is a labelled task that does nothing but submit further plans when it runs, each at a
fixed time or at a time relative to the clock.
-/

namespace VirtualMesh

/-- When a plan is to run: at an instant, or a signed number of nanoseconds from the clock. -/
inductive Timing where
  | at (t : Instant)
  | after (nanos : Int)

inductive Plan (α : Type) where
  | mk (label : α) (next : List (Timing × Plan α))

namespace Plan

variable {α : Type}

def label : Plan α → α
  | .mk l _ => l

mutual

/-- The number of tasks in a plan. -/
def size : Plan α → Nat
  | .mk _ next => 1 + sizes next

def sizes : List (Timing × Plan α) → Nat
  | [] => 0
  | (_, p) :: ps => size p + sizes ps

end

def submissions (clock : Instant) :
    List (Timing × Plan α) → Except Fault (List (Submission (Plan α)))
  | [] => .ok []
  | (.at t, p) :: ps => (submissions clock ps).map (⟨t, p⟩ :: ·)
  | (.after nanos, p) :: ps =>
    match clock.shift? nanos with
    | none => .error .instantOverflow
    | some t => (submissions clock ps).map (⟨t, p⟩ :: ·)

def handler : Handler (Plan α) Unit Unit
  | .mk _ next, clock, _ => (submissions clock next).map fun ss => ⟨(), (), ss⟩

/-- Every run takes one task off the plans in the queue. -/
def dynamics : Dynamics (Plan α) Unit Unit where
  handler := handler
  allowance _ m := (m.queue.map fun e => e.task.size).foldr (· + ·) 0

end Plan

end VirtualMesh
