import VirtualMesh.Consensus.Basic

/-!
# Gossip engines

A toy replicated log: to propose a state is to raise one's height by one and to flood the state
through all links; a received state is adopted if its height is greater than one's own. On the
wire a message is the height in eight bytes, most significant first, and then the state.
-/

namespace VirtualMesh

structure GossipEngine where
  key : PublicKey
  decided : Decision
  /-- The links attached so far, in order, less those that a proposal found gone. -/
  links : List Nat
  /-- How many messages were rejected. The counters of an engine count on without end; a machine
  word would start again at zero after `2 ^ 64` calls. -/
  rejected : Nat
  ticks : Nat

namespace GossipEngine

def initial (key : PublicKey) : GossipEngine := ⟨key, .initial, [], 0, 0⟩

def encode (h : Height) (s : State) : Bytes := BigEndian.encode 8 h.value.toNat ++ s.bytes

def decode (message : Bytes) : Except ConsensusError (Height × State) :=
  if message.isEmpty then .error .messageIsEmpty
  else if message.length < 8 then .error .messageUnknownMessageType
  else .ok (⟨UInt64.ofNat (BigEndian.decode (message.take 8))⟩, ⟨message.drop 8⟩)

/-- Takes over a decision of a greater height; the state is left alone otherwise. -/
def adopt (d : Decision) (message : Bytes) : Except ConsensusError Decision :=
  match decode message with
  | .error e => .error e
  | .ok (h, s) => if h ≤ d.height then .error .decideHeightLower else .ok ⟨h, .zero, s⟩

def receive (e : GossipEngine) (message : Bytes) : GossipEngine × Verdict :=
  match adopt e.decided message with
  | .ok d => ({ e with decided := d }, none)
  | .error error => ({ e with rejected := e.rejected + 1 }, some error)

def update (e : GossipEngine) : GossipEngine × Verdict := ({ e with ticks := e.ticks + 1 }, none)

def propose (e : GossipEngine) (alive : Nat → Bool) (s : State) :
    Except Fault (GossipEngine × List Outgoing) :=
  match e.decided.height.next with
  | .error f => .error f
  | .ok h =>
    let links := e.links.filter alive
    .ok ({ e with decided := ⟨h, .zero, s⟩, links }, links.map fun l => ⟨l, encode h s⟩)

def attach (e : GossipEngine) (links : List Nat) : GossipEngine :=
  { e with links := e.links ++ links }

/-- The number of attached links that still exist. -/
def attached (e : GossipEngine) (alive : Nat → Bool) : Nat := e.links.countP alive

end GossipEngine

instance : Consensus GossipEngine where
  publicKey e := e.key
  receive := GossipEngine.receive
  update := GossipEngine.update
  current e := e.decided
  propose := GossipEngine.propose
  attach? e links := some (e.attach links)
  reject? _ _ := none

end VirtualMesh
