import VirtualMesh.Count
import VirtualMesh.Time.Delay

/-!
# Statistics of deliveries

A peer counts the messages it delivers and drops and keeps the extrema and the sum of their
delays. The statistics of several peers merge into those of all their deliveries.
-/

namespace VirtualMesh

structure LatencyStats where
  min : Option Delay
  max : Option Delay
  total : Delay
  deriving DecidableEq

namespace LatencyStats

def empty : LatencyStats := ⟨none, none, .zero⟩

/-- The lesser of two delays that may be missing. -/
def least (a b : Option Delay) : Option Delay :=
  match a, b with
  | some a, some b => some (Min.min a b)
  | some a, none => some a
  | none, b => b

/-- The greater of two delays that may be missing. -/
def greatest (a b : Option Delay) : Option Delay :=
  match a, b with
  | some a, some b => some (Max.max a b)
  | some a, none => some a
  | none, b => b

def record (s : LatencyStats) (d : Delay) : LatencyStats :=
  ⟨least s.min (some d), greatest s.max (some d), s.total + d⟩

def merge (s t : LatencyStats) : LatencyStats :=
  ⟨least s.min t.min, greatest s.max t.max, s.total + t.total⟩

end LatencyStats

structure PeerStats where
  messages : UInt64
  bytes : UInt64
  dropped : UInt64
  latencies : LatencyStats
  deriving DecidableEq

namespace PeerStats

def empty : PeerStats := ⟨0, 0, 0, .empty⟩

def recordDelivery (s : PeerStats) (d : Delay) (size : Nat) : Except Fault PeerStats := do
  let messages ← addCount s.messages 1
  let bytes ← addCount s.bytes size
  return { s with messages, bytes, latencies := s.latencies.record d }

def recordDrop (s : PeerStats) : Except Fault PeerStats := do
  let dropped ← addCount s.dropped 1
  return { s with dropped }

def merge (s t : PeerStats) : Except Fault PeerStats := do
  let messages ← addCount s.messages t.messages.toNat
  let bytes ← addCount s.bytes t.bytes.toNat
  let dropped ← addCount s.dropped t.dropped.toNat
  return ⟨messages, bytes, dropped, s.latencies.merge t.latencies⟩

/-- The sum of the delays over the number of messages, cut toward zero; none without messages.
The number of messages enters as a signed 64-bit number. -/
def meanLatency (s : PeerStats) : Except Fault (Option Delay) :=
  if s.messages = 0 then .ok none
  else
    match Delay.ofInt? (s.latencies.total.nanos.tdiv s.messages.toInt64.toInt) with
    | some mean => .ok (some mean)
    | none => .error .quotientOverflow

end PeerStats

end VirtualMesh
