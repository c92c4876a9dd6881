import VirtualMesh.Engine.Gossip
import VirtualMesh.Engine.Recording

/-!
# Engines of a simulation

Engines of both kinds may take part in one simulation.
-/

namespace VirtualMesh

inductive Engine where
  | recording (e : RecordingEngine)
  | gossip (e : GossipEngine)

namespace Engine

def receive : Engine → Bytes → Engine × Verdict
  | .recording e, message => let (e, v) := e.receive message; (.recording e, v)
  | .gossip e, message => let (e, v) := e.receive message; (.gossip e, v)

def update : Engine → Engine × Verdict
  | .recording e => let (e, v) := e.update; (.recording e, v)
  | .gossip e => let (e, v) := e.update; (.gossip e, v)

def propose : Engine → (Nat → Bool) → State → Except Fault (Engine × List Outgoing)
  | .recording e, _, s => .ok (.recording (e.propose s), [])
  | .gossip e, alive, s => (e.propose alive s).map fun (e, sent) => (.gossip e, sent)

end Engine

instance : Consensus Engine where
  publicKey
    | .recording e => e.key
    | .gossip e => e.key
  receive := Engine.receive
  update := Engine.update
  current
    | .recording e => e.current
    | .gossip e => e.decided
  propose := Engine.propose
  attach?
    | .recording _, _ => none
    | .gossip e, links => some (.gossip (e.attach links))
  reject?
    | .recording e, error => some (.recording { e with rejectWith := some error })
    | .gossip _, _ => none

end VirtualMesh
