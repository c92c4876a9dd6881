import VirtualMesh.Consensus.Basic

/-!
# Recording engines

A recording engine takes down every message, update and proposal. It accepts everything until it
is told to reject, and takes down what it rejects all the same.
-/

namespace VirtualMesh

structure RecordingEngine where
  key : PublicKey
  /-- The latest first, as are the proposals; the time of day at which a message came is left out. -/
  received : List Bytes
  /-- Counts on without end; a machine word would start again at zero after `2 ^ 64` updates. -/
  updates : Nat
  proposals : List State
  rejectWith : Verdict

namespace RecordingEngine

def initial (key : PublicKey) : RecordingEngine := ⟨key, [], 0, [], none⟩

def receive (e : RecordingEngine) (message : Bytes) : RecordingEngine × Verdict :=
  ({ e with received := message :: e.received }, e.rejectWith)

def update (e : RecordingEngine) : RecordingEngine × Verdict :=
  ({ e with updates := e.updates + 1 }, e.rejectWith)

def propose (e : RecordingEngine) (s : State) : RecordingEngine :=
  { e with proposals := s :: e.proposals }

/-- The messages in the order in which they came. -/
def payloads (e : RecordingEngine) : List Bytes := e.received.reverse

/-- The last proposal, at a height of the number of proposals. -/
def current (e : RecordingEngine) : Decision :=
  ⟨⟨UInt64.ofNat e.proposals.length⟩, .zero, e.proposals.head?.getD .empty⟩

end RecordingEngine

instance : Consensus RecordingEngine where
  publicKey e := e.key
  receive := RecordingEngine.receive
  update := RecordingEngine.update
  current := RecordingEngine.current
  propose e _ s := .ok (e.propose s, [])
  attach? _ _ := none
  reject? e error := some { e with rejectWith := some error }

end VirtualMesh
