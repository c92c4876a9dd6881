import VirtualMesh.Consensus.Error
import VirtualMesh.Consensus.State

/-!
# Engines

An engine takes messages, is updated from time to time, and can be asked to propose a state. To
spread a proposal it names the links to send a message through; it holds links by number only
and does not keep them alive.
-/

namespace VirtualMesh

/-- What an engine says to a message or an update: nothing, or why it refuses. -/
abbrev Verdict := Option ConsensusError

/-- A message that an engine wants sent through a link. -/
structure Outgoing where
  link : Nat
  payload : Bytes

class Consensus (ε : Type) where
  publicKey : ε → PublicKey
  receive : ε → Bytes → ε × Verdict
  update : ε → ε × Verdict
  current : ε → Decision
  /-- Takes up a state, given which links still exist. -/
  propose : ε → (Nat → Bool) → State → Except Fault (ε × List Outgoing)
  /-- Hands links to the engine; none if it has no use for them. -/
  attach? : ε → List Nat → Option ε
  /-- Makes the engine refuse all that follows; none if it cannot be told to. -/
  reject? : ε → ConsensusError → Option ε

end VirtualMesh
