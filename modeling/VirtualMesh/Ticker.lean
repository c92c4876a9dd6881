import VirtualMesh.Scheduler.Basic
import VirtualMesh.Shutdown

/-!
# Tickers

A ticker lets a target be called again one interval after the clock, as long as that instant
exists. The target is not kept alive by it.
-/

namespace VirtualMesh

inductive TickOutcome where
  | armed
  | closed
  deriving DecidableEq

def TickOutcome.name : TickOutcome → String
  | .armed => "Armed"
  | .closed => "Closed"

namespace Ticker

def text (interval : Duration) (targetAlive : Bool) : List Char :=
  "Ticker \x7b interval: ".toList ++ interval.text ++ ", target_alive: ".toList ++
    (if targetAlive then "true \x7d".toList else "false \x7d".toList)

/-- The task of calling the target after `interval`; none if there is no such instant. -/
def arm {τ : Type} (interval : Duration) (task : τ) (clock : Instant) : List (Submission τ) :=
  match clock.add? interval with
  | none => []
  | some t => [⟨t, task⟩]

end Ticker

/-- A target that counts its ticks and closes itself at a limit, if it has one. -/
structure Counter where
  interval : Duration
  limit : Option Nat
  ticks : Nat
  signal : Shutdown
  alive : Bool

namespace Counter

def opened (interval : Duration) (limit : Option Nat) : Counter :=
  ⟨interval, limit, 0, .opened, true⟩

/-- Whether a target that has ticked `ticks` times closes. -/
def isLimit (c : Counter) (ticks : Nat) : Bool :=
  match c.limit with
  | some limit => limit ≤ ticks
  | none => false

def arm (c : Counter) (clock : Instant) : List (Submission Unit) := Ticker.arm c.interval () clock

/-- One tick: a closed target does nothing; an open one counts, may close, and goes on. -/
def tick (c : Counter) (clock : Instant) : Reaction Unit (Option TickOutcome) Counter :=
  if !c.alive then ⟨c, none, []⟩
  else if c.signal.closed then ⟨c, some .closed, []⟩
  else
    let ticks := c.ticks + 1
    let signal := if c.isLimit ticks then c.signal.close.2 else c.signal
    ⟨{ c with ticks, signal }, some .armed, c.arm clock⟩

def handler : Handler Unit (Option TickOutcome) Counter := fun _ clock c => .ok (c.tick clock)

/-- Without a limit, a tick due now is followed by one tick for each interval up to the deadline.
With one, each tick in the queue runs, and so does each that a counted tick submits. -/
def allowance (deadline : Instant) (m : Machine Unit (Option TickOutcome) Counter) : Nat :=
  match m.world.limit with
  | some limit => m.pending + (limit - m.world.ticks) + 1
  | none =>
    if m.world.interval.nanos = 0 then m.pending
    else
      (m.queue.map fun e =>
        1 + ((deadline.nanos - max m.clock.nanos e.fireAt.nanos).toNat / m.world.interval.nanos)).foldr (· + ·) 0

def dynamics : Dynamics Unit (Option TickOutcome) Counter := ⟨handler, allowance⟩

end Counter

end VirtualMesh
