import VirtualMesh.Simulation.Basic

/-!
# Commands

Everything that can be done to a simulation from outside. Engines, shared random sources and
handles on peers are named by number; a command that names something that is not there is
refused.
-/

namespace VirtualMesh

inductive Command where
  | time (step : ClockStep)
  | newSource (seed : UInt64)
  /-- A peer with a random source of its own, or with a shared one. -/
  | newPeer (engine : Nat) (config : Config) (shared : Option Nat)
  | clonePeer (handle : Nat)
  | dropPeer (handle : Nat)
  | send (handle : Nat) (payload : Bytes)
  | update (handle : Nat)
  | close (handle : Nat)
  | propose (handle : Nat) (state : State)
  | receiveAt (engine : Nat) (message : Bytes)
  | updateAt (engine : Nat)
  | proposeAt (engine : Nat) (state : State)
  | reject (engine : Nat) (error : ConsensusError)
  | attach (engine : Nat) (handles : List Nat)
  /-- Drops the first links of an engine, or all of them. -/
  | unlink (engine : Nat) (count : Option Nat)
  /-- A mesh on some engines, which may repeat, or on all. -/
  | buildMesh (config : Config) (engines : Option (List Nat))
  /-- A handle on the peer from one place of the mesh to another. -/
  | holdPeer (place target : Nat)
  | broadcast (place : Nat) (payload : Bytes)
  /-- Attaches to the engine of each number the links that lead from the place of that number. -/
  | wireMesh
  | startMesh
  | closeMesh
  | dropMesh

inductive Answer where
  | done
  /-- The number of tasks that ran, of handles closed, of messages sent, or of a new thing. -/
  | count (n : Nat)
  | ticked (o : TickOutcome)
  | closed (byThis : Bool)
  | verdict (v : Verdict)
  | failed (e : MeshError)

/-- Why a command has no answer. -/
inductive Refusal where
  | absent
  | fault (f : Fault)

namespace Simulation

variable {ε ρ : Type} [NormalSource ρ] [Consensus ε]

def start (clock : Instant) (engines : List ε) : Simulation ε ρ :=
  Machine.startingAt clock (.ofEngines engines)

/-- What is there, or a refusal. -/
def require {α : Type} : Option α → Except Refusal α
  | some a => .ok a
  | none => .error .absent

def attempt {α : Type} : Except Fault α → Except Refusal α
  | .ok a => .ok a
  | .error f => .error (.fault f)

/-- Gives out a new handle on a peer. -/
def handOut (s : Simulation ε ρ) (peer : Nat) : Nat × Simulation ε ρ :=
  (s.world.handles.length, s.withWorld { s.world with handles := s.world.handles ++ [some peer] })

def addPeer (s : Simulation ε ρ) (engine source : Nat) (config : Config) : Nat × Simulation ε ρ :=
  let w := { s.world with peers := s.world.peers ++ [.fresh engine source config] }
  handOut (s.withWorld w) s.world.peers.length

def addSource (s : Simulation ε ρ) (seed : Option UInt64) : Nat × Simulation ε ρ :=
  let number := s.world.sources.length
  (number, s.withWorld { s.world with sources := s.world.sources ++ [NormalSource.make seed number] })

def newPeer (s : Simulation ε ρ) (engine : Nat) (config : Config) (shared : Option Nat) :
    Except Refusal (Answer × Simulation ε ρ) := do
  let _ ← require s.world.engines[engine]?
  let source ← match shared with
    | some n => some <$> require s.world.shared[n]?
    | none => pure none
  match config.validate, source with
  | .error e, _ => return (.failed e, s)
  | .ok (), some source =>
    let (handle, s) := s.addPeer engine source config
    return (.count handle, s)
  | .ok (), none =>
    let (source, s) := s.addSource config.seed
    let (handle, s) := s.addPeer engine source config
    return (.count handle, s)

/-- Hands links to an engine: `none` if it has no use for them. -/
def attachTo (s : Simulation ε ρ) (engine : Nat) (peers : List Nat) : Option (Simulation ε ρ) := do
  let e ← s.world.engines[engine]?
  let (links, w) := s.world.link engine peers
  let e ← Consensus.attach? e links
  return s.withWorld (w.setEngine engine e)

/-- Wires the engines from `engine` on to the rows of a mesh, as far as they take links. -/
def wire (s : Simulation ε ρ) (engine : Nat) : List (List (Nat × Nat)) → Simulation ε ρ
  | [] => s
  | row :: rows => wire ((s.attachTo engine (row.map Prod.snd)).getD s) (engine + 1) rows

def apply (s : Simulation ε ρ) : Command → Except Refusal (Answer × Simulation ε ρ)
  | .time step => do
    let (ran, s) ← attempt (World.dynamics.step s step)
    return (.count ran, s)
  | .newSource seed => do
    let (source, s) := s.addSource (some seed)
    let shared := s.world.shared
    return (.count shared.length, s.withWorld { s.world with shared := shared ++ [source] })
  | .newPeer engine config shared => s.newPeer engine config shared
  | .clonePeer handle => do
    let peer ← require (s.world.peerOfHandle handle)
    let (handle, s) := s.handOut peer
    return (.count handle, s)
  | .dropPeer handle => do
    let _ ← require (s.world.peerOfHandle handle)
    return (.done, s.withWorld { s.world with handles := s.world.handles.set handle none })
  | .send handle payload => do
    let peer ← require (s.world.peerOfHandle handle)
    return (.done, ← attempt (s.send peer payload))
  | .update handle => do
    let peer ← require (s.world.peerOfHandle handle)
    let (outcome, s) := s.update peer
    return (.ticked outcome, s)
  | .close handle => do
    let peer ← require (s.world.peerOfHandle handle)
    let (closed, w) := s.world.close peer
    return (.closed closed, s.withWorld w)
  | .propose handle state => do
    let peer ← require (s.world.peerOfHandle handle)
    let p ← require s.world.peers[peer]?
    return (.done, ← attempt (s.propose p.engine state))
  | .receiveAt engine message => do
    let e ← require s.world.engines[engine]?
    let (e, verdict) := Consensus.receive e message
    return (.verdict verdict, s.withWorld (s.world.setEngine engine e))
  | .updateAt engine => do
    let e ← require s.world.engines[engine]?
    let (e, verdict) := Consensus.update e
    return (.verdict verdict, s.withWorld (s.world.setEngine engine e))
  | .proposeAt engine state => do
    let _ ← require s.world.engines[engine]?
    return (.done, ← attempt (s.propose engine state))
  | .reject engine error => do
    let e ← require s.world.engines[engine]?
    let e ← require (Consensus.reject? e error)
    return (.done, s.withWorld (s.world.setEngine engine e))
  | .attach engine handles => do
    let peers ← handles.mapM fun h => require (s.world.peerOfHandle h)
    let s ← require (s.attachTo engine peers)
    return (.done, s)
  | .unlink engine count => do
    let _ ← require s.world.engines[engine]?
    let links := World.unlinkFirst engine (count.getD s.world.links.length) s.world.links
    return (.count links.length, s.withWorld { s.world with links })
  | .buildMesh config engines => do
    let engines := engines.getD (List.range s.world.engines.length)
    let _ ← engines.mapM fun e => require s.world.engines[e]?
    match s.world.buildMesh engines config with
    | .error e => return (.failed e, s)
    | .ok w => return (.done, s.withWorld w)
  | .holdPeer place target => do
    let m ← require s.world.mesh
    match m.peer place target with
    | .error e => return (.failed e, s)
    | .ok peer =>
      let (handle, s) := s.handOut peer
      return (.count handle, s)
  | .broadcast place payload => do
    let m ← require s.world.mesh
    match m.peersOf place with
    | .error e => return (.failed e, s)
    | .ok row =>
      let s ← attempt (s.sendAll (row.map fun x => (x.2, payload)))
      return (.count row.length, s)
  | .wireMesh => do
    let m ← require s.world.mesh
    return (.done, s.wire 0 m.rows)
  | .startMesh => do
    let m ← require s.world.mesh
    return (.done, s.updateAll m.peers)
  | .closeMesh => do
    let m ← require s.world.mesh
    let (closed, w) := s.world.closeAll m.peers
    return (.count closed, s.withWorld w)
  | .dropMesh => do
    let _ ← require s.world.mesh
    return (.done, s.withWorld { s.world with mesh := none })

/-- Applies commands in order, up to the first that is refused. -/
def run (s : Simulation ε ρ) : List Command → Except Refusal (List Answer × Simulation ε ρ)
  | [] => .ok ([], s)
  | c :: cs =>
    match s.apply c with
    | .error r => .error r
    | .ok (answer, s) => (s.run cs).map fun (answers, s) => (answer :: answers, s)

end Simulation

end VirtualMesh
