import VirtualMesh.Fault
import VirtualMesh.Power

/-!
# 64-bit counts

Counts are unsigned 64-bit numbers that are added to and never wrap: a sum past the last value
is a fault.
-/

namespace VirtualMesh

/-- The count after `n` more, if 64 bits still hold it. -/
def addCount (c : UInt64) (n : Nat) : Except Fault UInt64 :=
  if c.toNat + n < 2 ^ 64 then .ok (UInt64.ofNat (c.toNat + n)) else .error .countOverflow

theorem addCount_eq_ok {c d : UInt64} {n : Nat} :
    addCount c n = .ok d ↔ d.toNat = c.toNat + n := by
  unfold addCount
  split
  · rename_i h
    simp only [Except.ok.injEq]
    constructor
    · rintro rfl
      rw [UInt64.toNat_ofNat', Nat.mod_eq_of_lt h]
    · intro hd
      rw [← hd, UInt64.ofNat_toNat]
  · rename_i h
    simp only [reduceCtorEq, false_iff]
    intro hd
    exact h (hd ▸ d.toNat_lt)

/-- The product of two numbers, if 64 bits hold it. -/
def mulCount (m n : Nat) : Except Fault Nat :=
  if m * n < 2 ^ 64 then .ok (m * n) else .error .countOverflow

end VirtualMesh
