import VirtualMesh.Address
import VirtualMesh.Consensus.Basic
import VirtualMesh.Mesh
import VirtualMesh.Peer
import VirtualMesh.Ticker

/-!
# The world of a simulation

Engines, random sources and peers are numbered in the order in which they came to be. Peers are
held by handles, by links that belong to engines, and by the mesh; a peer that nothing holds and
that has no message under way is gone, and a tick that fires for it does nothing.
-/

namespace VirtualMesh

/-- A link through which its owner, an engine, sends to a peer. -/
structure Link where
  number : Nat
  owner : Nat
  peer : Nat

structure World (ε ρ : Type) where
  engines : List ε
  sources : List ρ
  peers : List Peer
  /-- The peer of each handle; none if the handle was dropped. -/
  handles : List (Option Nat)
  /-- The random sources that were made to be shared. -/
  shared : List Nat
  /-- The mesh that commands are about. One that is built while it is there takes its place; the peers of the old
  one stay as long as handles and links hold them. -/
  mesh : Option Mesh
  links : List Link
  /-- The number of links made so far. -/
  linked : Nat

/-- What is put into the queue of a simulation. -/
inductive Task where
  | delivery (peer : Nat) (payload : Bytes) (delay : Delay)
  | tick (peer : Nat)

/-- What a task turned out to do. -/
inductive Outcome where
  | delivered
  | dropped
  | ticked (o : TickOutcome)
  /-- Nothing, for want of a peer. -/
  | expired
  deriving DecidableEq

namespace World

variable {ε ρ : Type}

def ofEngines (engines : List ε) : World ε ρ := ⟨engines, [], [], [], [], none, [], 0⟩

def addressOf (peer : Nat) : Address := .fresh peer

def isHeld (w : World ε ρ) (peer : Nat) : Bool :=
  w.handles.contains (some peer) || w.links.any (fun l => l.peer = peer) ||
    (match w.mesh with
      | some m => m.contains peer
      | none => false)

def isAlive (w : World ε ρ) (peer : Nat) : Bool :=
  w.isHeld peer ||
    (match w.peers[peer]? with
      | some p => 0 < p.inFlight
      | none => false)

def hasLink (w : World ε ρ) (number : Nat) : Bool := w.links.any fun l => l.number = number

def peerOfLink (w : World ε ρ) (number : Nat) : Option Nat :=
  (w.links.find? fun l => l.number = number).map Link.peer

def peerOfHandle (w : World ε ρ) (handle : Nat) : Option Nat := (w.handles[handle]?).join

def modifyPeer (w : World ε ρ) (peer : Nat) (f : Peer → Peer) : World ε ρ :=
  { w with peers := w.peers.modify peer f }

def setEngine (w : World ε ρ) (engine : Nat) (e : ε) : World ε ρ :=
  { w with engines := w.engines.set engine e }

def setSource (w : World ε ρ) (source : Nat) (r : ρ) : World ε ρ :=
  { w with sources := w.sources.set source r }

/-- Closes a peer, and says whether this call did. -/
def close (w : World ε ρ) (peer : Nat) : Bool × World ε ρ :=
  match w.peers[peer]? with
  | none => (false, w)
  | some p =>
    let (closed, signal) := p.signal.close
    (closed, w.modifyPeer peer fun p => { p with signal })

/-- Closes peers one after another, and counts those that were open. -/
def closeAll (w : World ε ρ) : List Nat → Nat × World ε ρ
  | [] => (0, w)
  | p :: ps =>
    let (closed, w) := w.close p
    let (n, w) := w.closeAll ps
    ((if closed then 1 else 0) + n, w)

/-- New links of `owner` to peers, with their numbers. -/
def link (w : World ε ρ) (owner : Nat) (peers : List Nat) : List Nat × World ε ρ :=
  let links := (peers.zipIdx w.linked).map fun (peer, number) => (⟨number, owner, peer⟩ : Link)
  (links.map Link.number, { w with links := w.links ++ links, linked := w.linked + peers.length })

/-- Drops the first `count` of the links that belong to `owner`. -/
def unlinkFirst (owner : Nat) : (count : Nat) → List Link → List Link
  | 0, ls => ls
  | _, [] => []
  | count + 1, l :: ls =>
    if l.owner = owner then unlinkFirst owner count ls else l :: unlinkFirst owner (count + 1) ls

variable [Consensus ε]

/-- A message arrives at its peer, which hands it on to its engine or drops it. -/
def deliver (w : World ε ρ) (peer : Nat) (payload : Bytes) (delay : Delay) :
    Except Fault (Outcome × World ε ρ) :=
  match w.peers[peer]? with
  | none => .ok (.expired, w)
  | some p => do
    let arrived ← p.arrive delay payload.length
    let w := { w with peers := w.peers.set peer arrived }
    if p.drops then return (.dropped, w)
    match w.engines[p.engine]? with
    | none => return (.delivered, w)
    | some e => return (.delivered, w.setEngine p.engine (Consensus.receive e payload).1)

/-- A peer updates its engine and calls itself again after its interval, unless it is closed. -/
def update (w : World ε ρ) (peer : Nat) (clock : Instant) : Reaction Task TickOutcome (World ε ρ) :=
  match w.peers[peer]? with
  | none => ⟨w, .closed, []⟩
  | some p =>
    if p.isClosed then ⟨w, .closed, []⟩
    else
      let again := Ticker.arm p.config.tick (Task.tick peer) clock
      match w.engines[p.engine]? with
      | none => ⟨w, .armed, again⟩
      | some e => ⟨w.setEngine p.engine (Consensus.update e).1, .armed, again⟩

def handler : Handler Task Outcome (World ε ρ)
  | .delivery peer payload delay, _, w =>
    (w.deliver peer payload delay).map fun (outcome, w) => ⟨w, outcome, []⟩
  | .tick peer, clock, w =>
    if w.isAlive peer then
      let r := w.update peer clock
      .ok ⟨r.world, .ticked r.outcome, r.submissions⟩
    else .ok ⟨w, .expired, []⟩

/-- How many tasks of a kind can come from one that fires at `t`: a delivery is one task, a tick
one for each interval up to the deadline. -/
def share (w : World ε ρ) (deadline t : Instant) : Task → Nat
  | .delivery .. => 1
  | .tick peer =>
    match w.peers[peer]? with
    | none => 1
    | some p => (deadline.nanos - t.nanos).toNat / p.config.tick.nanos + 1

/-- The number of tasks that a run to `deadline` takes, if all peers stay open. -/
def allowance (deadline : Instant) (m : Machine Task Outcome (World ε ρ)) : Nat :=
  ((m.queue.filter fun e => e.fireAt ≤ deadline).map
    fun e => m.world.share deadline e.fireAt e.task).foldr (· + ·) 0

def dynamics : Dynamics Task Outcome (World ε ρ) := ⟨handler, allowance⟩

end World

end VirtualMesh
