import VirtualMesh.Consensus.Error
import VirtualMesh.Decimal.Digits

/-!
# Errors of the simulation

A mesh that cannot be built, a peer that is not there, or a refusal of an engine passed on.
-/

namespace VirtualMesh

inductive MeshError where
  | invalidConfig (reason : List Char)
  | tooSmall (required actual : Nat)
  | peerNotFound (index size : Nat)
  | consensus (error : ConsensusError)

namespace MeshError

def message : MeshError → List Char
  | .invalidConfig reason => "Invalid configuration: ".toList ++ reason
  | .tooSmall required actual =>
    "Mesh requires at least ".toList ++ Decimal.digits required ++ " engines, got ".toList ++
      Decimal.digits actual
  | .peerNotFound index size =>
    "Peer ".toList ++ Decimal.digits index ++ " not found in mesh of ".toList ++ Decimal.digits size
  | .consensus error =>
    "Consensus error (".toList ++ error.phase.text.toList ++ "): ".toList ++ error.message.toList

end MeshError

end VirtualMesh
