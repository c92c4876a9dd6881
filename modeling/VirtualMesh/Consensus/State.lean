import VirtualMesh.Bytes
import VirtualMesh.Count

/-!
# What engines agree on

Engines decide on a state, an opaque byte string, at one height after another, and may need
several rounds for one height.
-/

namespace VirtualMesh

structure Height where
  value : UInt64
  deriving DecidableEq

structure Round where
  value : UInt64
  deriving DecidableEq

structure State where
  bytes : Bytes
  deriving DecidableEq

structure PublicKey where
  bytes : Bytes
  deriving DecidableEq

def Height.zero : Height := ⟨0⟩

def Height.next (h : Height) : Except Fault Height := (addCount h.value 1).map Height.mk

def Height.text (h : Height) : List Char := Decimal.digits h.value.toNat

def Round.zero : Round := ⟨0⟩

def Round.next (r : Round) : Except Fault Round := (addCount r.value 1).map Round.mk

def Round.text (r : Round) : List Char := Decimal.digits r.value.toNat

instance : LE Height := ⟨fun a b => a.value ≤ b.value⟩

instance : LT Height := ⟨fun a b => a.value < b.value⟩

instance (a b : Height) : Decidable (a ≤ b) := inferInstanceAs (Decidable (a.value ≤ b.value))

instance (a b : Height) : Decidable (a < b) := inferInstanceAs (Decidable (a.value < b.value))

def State.empty : State := ⟨[]⟩

def PublicKey.text (k : PublicKey) : List Char := Hex.bytesText k.bytes

/-- An engine's latest state, with the height and round of its decision. -/
structure Decision where
  height : Height
  round : Round
  state : State
  deriving DecidableEq

def Decision.initial : Decision := ⟨.zero, .zero, .empty⟩

end VirtualMesh
