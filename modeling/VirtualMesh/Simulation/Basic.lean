import VirtualMesh.Simulation.World

/-!
# Simulations

A simulation is a machine whose world holds engines and the peers that connect them. Messages
are sent, peers updated and states proposed from outside, while time stands still.
-/

namespace VirtualMesh

abbrev Simulation (ε ρ : Type) := Machine Task Outcome (World ε ρ)

namespace Simulation

variable {ε ρ : Type} [NormalSource ρ]

/-- Sends a message through a peer: one delay is drawn, and the delivery is put into the queue. -/
def send (s : Simulation ε ρ) (peer : Nat) (payload : Bytes) : Except Fault (Simulation ε ρ) :=
  match s.world.peers[peer]? with
  | none => .ok s
  | some p =>
    match s.world.sources[p.source]? with
    | none => .ok s
    | some source =>
      let (sampled, source) := p.latency.sample source
      let delay := p.recorded sampled
      match s.clock.add? delay.clamped with
      | none => .error .instantOverflow
      | some fireAt =>
        let w := (s.world.setSource p.source source).modifyPeer peer fun p =>
          { p with inFlight := p.inFlight + 1 }
        .ok (Machine.put ⟨fireAt, .delivery peer payload delay⟩ (s.withWorld w))

/-- Sends a message through each of several peers, in order. -/
def sendAll (s : Simulation ε ρ) (messages : List (Nat × Bytes)) : Except Fault (Simulation ε ρ) :=
  messages.foldlM (fun s m => s.send m.1 m.2) s

variable [Consensus ε]

def update (s : Simulation ε ρ) (peer : Nat) : TickOutcome × Simulation ε ρ :=
  let r := s.world.update peer s.clock
  (r.outcome, s.absorb r)

/-- Updates several peers, in order. -/
def updateAll (s : Simulation ε ρ) (peers : List Nat) : Simulation ε ρ :=
  peers.foldl (fun s p => (s.update p).2) s

/-- Has an engine propose a state, and sends what it wants sent. -/
def propose (s : Simulation ε ρ) (engine : Nat) (state : State) : Except Fault (Simulation ε ρ) :=
  match s.world.engines[engine]? with
  | none => .ok s
  | some e => do
    let (e, outgoing) ← Consensus.propose e s.world.hasLink state
    let s : Simulation ε ρ := s.withWorld (s.world.setEngine engine e)
    s.sendAll (outgoing.filterMap fun o => (s.world.peerOfLink o.link).map (·, o.payload))

end Simulation

/-- Builds a mesh of engines, given by number, and the peers between them, which share one random
source. The world has one mesh at a time, so this one takes the place of an earlier one. -/
def World.buildMesh {ε ρ : Type} [NormalSource ρ] (w : World ε ρ) (engines : List Nat)
    (config : Config) : Except MeshError (World ε ρ) :=
  if engines.length < Mesh.minSize then .error (.tooSmall Mesh.minSize engines.length)
  else
    match config.validate with
    | .error e => .error e
    | .ok () =>
      let source := w.sources.length
      let peers := (List.range engines.length).flatMap fun place =>
        (Mesh.others engines place).map fun x => Peer.fresh x.1 source config
      .ok { w with
        sources := w.sources ++ [NormalSource.make config.seed source]
        peers := w.peers ++ peers
        mesh := some (.number engines w.peers.length) }

/-- The report on a mesh of this world. -/
def World.report {ε ρ : Type} (w : World ε ρ) (m : Mesh) : Except Fault MeshReport :=
  MeshReport.of m.size (m.peers.filterMap fun p => (w.peers[p]?).map Peer.stats)

end VirtualMesh
