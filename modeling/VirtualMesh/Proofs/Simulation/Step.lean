import VirtualMesh.Proofs.Scheduler.History
import VirtualMesh.Simulation.Command

/-!
# Single steps of a simulation

A command may send many messages or run many tasks. Here it is taken apart into actions, each of
which makes one change, and `Step` says once what each action does. A property of all reachable
states is then shown action by action.
-/

namespace VirtualMesh

def Task.peer : Task → Nat
  | .delivery p _ _ => p
  | .tick p => p

/-- A change of a simulation that is made at once. -/
inductive Action where
  /-- The clock moves on and nothing is due. -/
  | wait (t : Instant)
  | fire (entry : Entry Task)
  | send (peer : Nat) (payload : Bytes)
  | update (peer : Nat)
  | close (peer : Nat)
  | receive (engine : Nat) (message : Bytes)
  | updateEngine (engine : Nat)
  /-- An engine takes up a state, before it is sent on. -/
  | propose (engine : Nat) (state : State)
  | reject (engine : Nat) (error : ConsensusError)
  | attach (engine : Nat) (peers : List Nat)
  | unlink (engine : Nat)
  | addSource
  | addPeers (peers : List Peer)
  /-- Handles or shared sources change. -/
  | hold
  | setMesh (mesh : Option Mesh)

/-- The peer that is sent through, with the payload. -/
def Action.sent? : Action → Option (Nat × Bytes)
  | .send p payload => some (p, payload)
  | _ => none

def Action.added : Action → List Peer
  | .addPeers peers => peers
  | _ => []

variable {ε ρ : Type}

def World.setPeer (w : World ε ρ) (p : Nat) (peer : Peer) : World ε ρ :=
  { w with peers := w.peers.set p peer }

/-- Whatever the world names by number is there, links have numbers of their own, and all peers have
valid configurations. -/
structure World.WellFormed (w : World ε ρ) : Prop where
  handles : ∀ p, some p ∈ w.handles → p < w.peers.length
  links : ∀ l ∈ w.links, l.peer < w.peers.length
  linked : ∀ l ∈ w.links, l.number < w.linked
  numbered : w.links.Pairwise fun l m => l.number < m.number
  mesh : ∀ m, w.mesh = some m → ∀ p ∈ m.peers, p < w.peers.length
  shared : ∀ n ∈ w.shared, n < w.sources.length
  sources : ∀ p ∈ w.peers, p.source < w.sources.length
  engines : ∀ p ∈ w.peers, p.engine < w.engines.length
  valid : ∀ p ∈ w.peers, p.config.validate = .ok ()

namespace Simulation

variable [NormalSource ρ] [Consensus ε]

/-- What each action does. -/
inductive Step : Simulation ε ρ → Action → Simulation ε ρ → Prop
  | wait {s : Simulation ε ρ} {t : Instant} (hdue : s.isDue t = false) :
      Step s (.wait t) (s.moveTo t)
  | deliver {s : Simulation ε ρ} {e : Entry Task} {rest : List (Entry Task)} {p : Nat} {payload : Bytes}
      {delay : Delay} {peer : Peer} {stats : PeerStats} {x : ε}
      (hq : s.queue = e :: rest) (ht : e.task = .delivery p payload delay)
      (hp : s.world.peers[p]? = some peer) (hd : peer.drops = false)
      (hs : peer.stats.recordDelivery delay payload.length = .ok stats)
      (hx : s.world.engines[peer.engine]? = some x) :
      Step s (.fire e) (s.popped e rest .delivered
        ((s.world.setPeer p { peer with stats, inFlight := peer.inFlight - 1 }).setEngine peer.engine
          (Consensus.receive x payload).1))
  | drop {s : Simulation ε ρ} {e : Entry Task} {rest : List (Entry Task)} {p : Nat} {payload : Bytes}
      {delay : Delay} {peer : Peer} {stats : PeerStats}
      (hq : s.queue = e :: rest) (ht : e.task = .delivery p payload delay)
      (hp : s.world.peers[p]? = some peer) (hd : peer.drops = true)
      (hs : peer.stats.recordDrop = .ok stats) :
      Step s (.fire e) (s.popped e rest .dropped
        (s.world.setPeer p { peer with stats, inFlight := peer.inFlight - 1 }))
  | tick {s : Simulation ε ρ} {e : Entry Task} {rest : List (Entry Task)} {p : Nat} {peer : Peer} {x : ε}
      (hq : s.queue = e :: rest) (ht : e.task = .tick p) (halive : s.world.isAlive p = true)
      (hp : s.world.peers[p]? = some peer) (hopen : peer.isClosed = false)
      (hx : s.world.engines[peer.engine]? = some x) :
      Step s (.fire e)
        (Machine.putAll (Ticker.arm peer.config.tick (.tick p) (max s.clock e.fireAt))
          (s.popped e rest (.ticked .armed) (s.world.setEngine peer.engine (Consensus.update x).1)))
  | idle {s : Simulation ε ρ} {e : Entry Task} {rest : List (Entry Task)} {p : Nat} {outcome : Outcome}
      (hq : s.queue = e :: rest) (ht : e.task = .tick p)
      (ho : outcome = .expired ∧ s.world.isAlive p = false ∨
        outcome = .ticked .closed ∧ s.world.isAlive p = true ∧
          ∃ peer, s.world.peers[p]? = some peer ∧ peer.isClosed = true) :
      Step s (.fire e) (s.popped e rest outcome s.world)
  | send {s : Simulation ε ρ} {p : Nat} {payload : Bytes} {peer : Peer} {source : ρ} {fireAt : Instant}
      (hp : s.world.peers[p]? = some peer) (hsource : s.world.sources[peer.source]? = some source)
      (hat : s.clock.add? (peer.recorded (peer.latency.sample source).1).clamped = some fireAt) :
      Step s (.send p payload)
        ((s.withWorld ((s.world.setSource peer.source (peer.latency.sample source).2).setPeer p
          { peer with inFlight := peer.inFlight + 1 })).put
            ⟨fireAt, .delivery p payload (peer.recorded (peer.latency.sample source).1)⟩)
  | update {s : Simulation ε ρ} {p : Nat} {peer : Peer} {x : ε}
      (hp : s.world.peers[p]? = some peer) (hopen : peer.isClosed = false)
      (hx : s.world.engines[peer.engine]? = some x) :
      Step s (.update p) (Machine.putAll (Ticker.arm peer.config.tick (.tick p) s.clock)
        (s.withWorld (s.world.setEngine peer.engine (Consensus.update x).1)))
  | close {s : Simulation ε ρ} {p : Nat} {peer : Peer} (hp : s.world.peers[p]? = some peer) :
      Step s (.close p) (s.withWorld (s.world.setPeer p { peer with signal := ⟨true⟩ }))
  | receive {s : Simulation ε ρ} {i : Nat} {message : Bytes} {x : ε} (hx : s.world.engines[i]? = some x) :
      Step s (.receive i message)
        (s.withWorld (s.world.setEngine i (Consensus.receive x message).1))
  | updateEngine {s : Simulation ε ρ} {i : Nat} {x : ε} (hx : s.world.engines[i]? = some x) :
      Step s (.updateEngine i) (s.withWorld (s.world.setEngine i (Consensus.update x).1))
  | propose {s : Simulation ε ρ} {i : Nat} {state : State} {x y : ε} {outgoing : List Outgoing}
      (hx : s.world.engines[i]? = some x)
      (hy : Consensus.propose x s.world.hasLink state = .ok (y, outgoing)) :
      Step s (.propose i state) (s.withWorld (s.world.setEngine i y))
  | reject {s : Simulation ε ρ} {i : Nat} {error : ConsensusError} {x y : ε}
      (hx : s.world.engines[i]? = some x) (hy : Consensus.reject? x error = some y) :
      Step s (.reject i error) (s.withWorld (s.world.setEngine i y))
  | attach {s : Simulation ε ρ} {i : Nat} {peers : List Nat} {x y : ε}
      (hpeers : ∀ p ∈ peers, p < s.world.peers.length) (hx : s.world.engines[i]? = some x)
      (hy : Consensus.attach? x (s.world.link i peers).1 = some y) :
      Step s (.attach i peers) (s.withWorld ((s.world.link i peers).2.setEngine i y))
  | unlink {s : Simulation ε ρ} {i : Nat} {links : List Link} (hlinks : links.Sublist s.world.links) :
      Step s (.unlink i) (s.withWorld { s.world with links })
  | addSource {s : Simulation ε ρ} {seed : Option UInt64} :
      Step s .addSource (s.withWorld { s.world with
        sources := s.world.sources ++ [NormalSource.make seed s.world.sources.length] })
  | addPeers {s : Simulation ε ρ} {peers : List Peer}
      (hpeers : ∀ p ∈ peers, p = .fresh p.engine p.source p.config ∧
        p.engine < s.world.engines.length ∧ p.source < s.world.sources.length ∧
        p.config.validate = .ok ()) :
      Step s (.addPeers peers) (s.withWorld { s.world with peers := s.world.peers ++ peers })
  | hold {s : Simulation ε ρ} {handles : List (Option Nat)} {shared : List Nat}
      (hhandles : ∀ p, some p ∈ handles → p < s.world.peers.length)
      (hshared : ∀ n ∈ shared, n < s.world.sources.length) :
      Step s .hold (s.withWorld { s.world with handles, shared })
  | setMesh {s : Simulation ε ρ} {mesh : Option Mesh}
      (hmesh : ∀ m, mesh = some m → ∀ p ∈ m.peers, p < s.world.peers.length) :
      Step s (.setMesh mesh) (s.withWorld { s.world with mesh })

/-- Actions one after another. -/
inductive Trace : Simulation ε ρ → List Action → Simulation ε ρ → Prop
  | nil {s : Simulation ε ρ} : Trace s [] s
  | cons {s s₁ s₂ : Simulation ε ρ} {a : Action} {as : List Action} :
      Step s a s₁ → Trace s₁ as s₂ → Trace s (a :: as) s₂

namespace Trace

variable {s s₁ s₂ : Simulation ε ρ} {a : Action} {as bs : List Action}

theorem single (h : Step s a s₁) : Trace s [a] s₁ := .cons h .nil

theorem append (h₁ : Trace s as s₁) (h₂ : Trace s₁ bs s₂) : Trace s (as ++ bs) s₂ := by
  induction h₁ with
  | nil => exact h₂
  | cons hstep _ ih => exact .cons hstep (ih h₂)

/-- What each of the actions keeps, all of them together keep. -/
theorem induct {P : Simulation ε ρ → Prop} {A : Action → Prop}
    (hstep : ∀ {s a s₁}, A a → P s → Step s a s₁ → P s₁) (h : Trace s as s₁)
    (ha : ∀ a ∈ as, A a) (hs : P s) : P s₁ := by
  induction h with
  | nil => exact hs
  | cons h _ ih =>
    obtain ⟨ha, has⟩ := List.forall_mem_cons.1 ha
    exact ih has (hstep ha hs h)

end Trace

end Simulation

end VirtualMesh
