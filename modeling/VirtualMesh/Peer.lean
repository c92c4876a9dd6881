import VirtualMesh.Config
import VirtualMesh.Latency
import VirtualMesh.Shutdown
import VirtualMesh.Stats

/-!
# Peers

A peer is the way to one engine: messages sent through it reach the engine after a delay drawn
from the peer's random source, and once started it updates the engine from time to time until it
is closed.
-/

namespace VirtualMesh

/-- Engine and source are numbers of a simulation's engines and random sources. -/
structure Peer where
  engine : Nat
  source : Nat
  config : Config
  stats : PeerStats
  signal : Shutdown
  /-- Messages sent and not yet delivered or dropped. -/
  inFlight : Nat

namespace Peer

def fresh (engine source : Nat) (config : Config) : Peer :=
  ⟨engine, source, config, .empty, .opened, 0⟩

def latency (p : Peer) : Latency := ⟨p.config.latency, p.config.jitter⟩

def isClosed (p : Peer) : Bool := p.signal.closed

/-- The delay that is recorded for a sampled one. -/
def recorded (p : Peer) (sampled : Delay) : Delay :=
  match p.config.negative with
  | .clamp => sampled.maxZero
  | .fireImmediately => sampled

/-- Whether a delivery that fires now is dropped. -/
def drops (p : Peer) : Bool := p.config.onClose = .drop && p.isClosed

/-- Takes down one message that has arrived. -/
def arrive (p : Peer) (delay : Delay) (size : Nat) : Except Fault Peer :=
  let stats := if p.drops then p.stats.recordDrop else p.stats.recordDelivery delay size
  stats.map fun stats => { p with stats, inFlight := p.inFlight - 1 }

/-- A description of the peer, given its address. -/
def text (p : Peer) (address : List Char) : List Char :=
  "IpcPeer \x7b addr: PeerAddr(".toList ++ address ++ "), latency: ".toList ++
    p.config.latency.text ++ ", closed: ".toList ++
    (if p.isClosed then "true \x7d".toList else "false \x7d".toList)

end Peer

end VirtualMesh
